/-
What the data preview's decoder makes of the documented table
(`parse_data_preview` of `sap-automate-adt/src/http.rs`): the rows that are
written, whatever the shape of each cell.

Cells keep the index: each of their shapes puts one value under the column
at hand and goes on to the next (`run_cell`), and all that is left behind is
the text of the last one.
-/
import SapAutomate.Adt.DataPreview
import SapAutomate.Lib.Xml.TagReading
import SapAutomate.Proofs.TreeValue

namespace SapAutomate.Adt

open Json Xml

-- =================================================================== shapes

/-- The first attribute of a local name has a value. -/
def Valued (tag : Tag) (key value : String) : Prop :=
  ∃ a, tag.attrs.find? (fun a => localName a.name == key) = some a
    ∧ unescape a.value = some value.toList

/-- No attribute has a local name. -/
def Without (tag : Tag) (key : String) : Prop :=
  ∀ a ∈ tag.attrs, localName a.name ≠ key

/-- Nothing but white space and comments. -/
def Fillers (ns : List Node) : Prop := ∀ n ∈ ns, n.Misc

/-- Nodes that show the items of a list, in order, with fillers between
them. -/
inductive Spaced {α : Type} (Shows : α → Node → Prop) :
    List α → List Node → Prop where
  | nil : Spaced Shows [] []
  | filler {xs : List α} {n : Node} {ns : List Node} (hn : n.Misc)
      (h : Spaced Shows xs ns) : Spaced Shows xs (n :: ns)
  | item {x : α} {xs : List α} {n : Node} {ns : List Node} (hn : Shows x n)
      (h : Spaced Shows xs ns) : Spaced Shows (x :: xs) (n :: ns)

/-- The tag of a column. -/
inductive ShowsColumn (column : String) : Node → Prop where
  | empty {tag : Tag} (hname : localName tag.name = "metadata")
      (hvalue : Valued tag "name" column) : ShowsColumn column (.empty tag)
  | elem {tag : Tag} {ns : List Node} {endPad : List Char}
      (hname : localName tag.name = "metadata")
      (hvalue : Valued tag "name" column) (hns : Fillers ns) :
      ShowsColumn column (.elem tag ns endPad)

/-- A cell in one of its shapes: with an attribute, or with a text, which
may be left out where the value is empty. -/
inductive ShowsCell (value : String) : Node → Prop where
  | attrEmpty {tag : Tag} (hname : localName tag.name = "cell")
      (hvalue : Valued tag "value" value) : ShowsCell value (.empty tag)
  | attr {tag : Tag} {ns : List Node} {endPad : List Char}
      (hname : localName tag.name = "cell")
      (hvalue : Valued tag "value" value) (hns : Fillers ns) :
      ShowsCell value (.elem tag ns endPad)
  | text {tag : Tag} {s t : List Char} {endPad : List Char}
      (hname : localName tag.name = "cell") (hno : Without tag "value")
      (ht : unescape s = some t)
      (htrim : Text.trimBy Text.isWhitespace t = value.toList) :
      ShowsCell value (.elem tag [.text s] endPad)
  | blankEmpty {tag : Tag} (hname : localName tag.name = "cell")
      (hno : Without tag "value") (hvalue : value = "") :
      ShowsCell value (.empty tag)
  | blank {tag : Tag} {ns : List Node} {endPad : List Char}
      (hname : localName tag.name = "cell") (hno : Without tag "value")
      (hns : Fillers ns) (hvalue : value = "") :
      ShowsCell value (.elem tag ns endPad)

/-- The cells of a row. -/
inductive ShowsCells (values : List String) : Node → Prop where
  | intro {tag : Tag} {ns : List Node} {endPad : List Char}
      (hname : localName tag.name = "cells")
      (h : Spaced ShowsCell values ns) :
      ShowsCells values (.elem tag ns endPad)

/-- A row. -/
inductive ShowsRow (values : List String) : Node → Prop where
  | intro {tag : Tag} {pre post : List Node} {cells : Node}
      {endPad : List Char} (hname : localName tag.name = "row")
      (hpre : Fillers pre) (hpost : Fillers post)
      (h : ShowsCells values cells) :
      ShowsRow values (.elem tag (pre ++ cells :: post) endPad)

/-- A table, in the shape of the data preview. -/
inductive ShowsTable (columns : List String) (rows : List (List String)) :
    Node → Prop where
  | intro {tag columnsTag rowsTag : Tag} {pre mid post cs rs : List Node}
      {endPad columnsPad rowsPad : List Char}
      (hname : localName tag.name = "tableData")
      (hcolumnsName : localName columnsTag.name = "columns")
      (hrowsName : localName rowsTag.name = "rows")
      (hpre : Fillers pre) (hmid : Fillers mid) (hpost : Fillers post)
      (hcolumns : Spaced ShowsColumn columns cs)
      (hrows : Spaced ShowsRow rows rs) :
      ShowsTable columns rows (.elem tag
        (pre ++ .elem columnsTag cs columnsPad
          :: (mid ++ .elem rowsTag rs rowsPad :: post)) endPad)

-- ==================================================================== events

section Events

variable {r : TagReader}
  (hunescape : ∀ {s t}, unescape s = some t → r.unescape s = some t)

/-- Reading several events. -/
def run (r : TagReader) (p : Preview) (es : List TagEvent) : Preview :=
  es.foldl (Preview.read r) p

theorem run_append (p : Preview) (es fs : List TagEvent) :
    run r p (es ++ fs) = run r (run r p es) fs := List.foldl_append

theorem loop_ok (p : Preview) (es : List TagEvent) :
    Preview.loop r p (es.map .ok) = run r p es := by
  induction es generalizing p with
  | nil => rfl
  | cons e es ih => exact ih (p.read r e)

/-- An element: its start, its content, its end. -/
theorem run_elem (p : Preview) (tag : Tag) (ns : List Node)
    (endPad : List Char) :
    run r p (Node.elem tag ns endPad).tagEvents
      = (run r (p.readStart r tag.name tag.pairs) (nodesTagEvents ns)).readEnd
        tag.name := by
  unfold Node.tagEvents
  show run r (p.readStart r tag.name tag.pairs) (nodesTagEvents ns ++ [_]) = _
  rw [run_append]
  rfl

theorem run_nodes_cons (p : Preview) (n : Node) (ns : List Node) :
    run r p (nodesTagEvents (n :: ns))
      = run r (run r p n.tagEvents) (nodesTagEvents ns) :=
  run_append p n.tagEvents (nodesTagEvents ns)

theorem attrNamed_pairs (tag : Tag) (key : String) :
    attrNamed r tag.pairs key
      = (tag.attrs.find? fun a => localName a.name == key).map fun a =>
        String.ofList ((r.unescape a.value).getD []) := by
  unfold attrNamed Tag.pairs
  rw [List.find?_map, Option.map_map]
  rfl

theorem attrNamed_without {tag : Tag} {key : String} (h : Without tag key) :
    attrNamed r tag.pairs key = none := by
  have hnone : tag.attrs.find? (fun a => localName a.name == key) = none :=
    List.find?_eq_none.mpr fun a ha hbeq => h a ha (beq_iff_eq.mp hbeq)
  rw [attrNamed_pairs, hnone]
  rfl

include hunescape

theorem attrNamed_valued {tag : Tag} {key value : String}
    (h : Valued tag key value) : attrNamed r tag.pairs key = some value := by
  obtain ⟨a, hfind, hvalue⟩ := h
  rw [attrNamed_pairs, hfind, Option.map_some, hunescape hvalue,
    Option.getD_some, String.ofList_toList]

/-- A filler changes nothing. -/
theorem run_misc {n : Node} (hn : n.Misc) (p : Preview) :
    run r p n.tagEvents = p := by
  cases n with
  | elem tag ns endPad => cases hn
  | empty tag => cases hn
  | cdata s => cases hn
  | comment s => rfl
  | pi s => rfl
  | text s =>
      have hblank : Blank s := hn
      have hself : unescape s = some s := unescapeGo_plain (hblank.not_mem rfl)
      have hnil : Text.trimBy Text.isWhitespace s = [] :=
        Text.trimBy_eq_nil_iff.mpr fun c hc =>
          Soap.isWhitespace_of_space (hblank c hc)
      show p.readText r s = p
      unfold Preview.readText
      rw [hunescape hself, Option.getD_some, hnil]
      exact if_neg fun h => h.2 rfl

theorem run_fillers {ns : List Node} (h : Fillers ns) (p : Preview) :
    run r p (nodesTagEvents ns) = p := by
  induction ns with
  | nil => rfl
  | cons n ns ih =>
      obtain ⟨hn, hns⟩ := List.forall_mem_cons.mp h
      rw [run_nodes_cons, run_misc hunescape hn, ih hns]

-- =================================================================== columns

omit hunescape in
/-- The start of an element that the decoder does not know. -/
theorem readStart_other {name : List Char} {local' : String}
    (hname : localName name = local') (hmeta : local' ≠ "metadata")
    (hrow : local' ≠ "row") (hcell : local' ≠ "cell") (p : Preview)
    (attrs : List (List Char × List Char)) : p.readStart r name attrs = p := by
  unfold Preview.readStart
  rw [hname, if_neg hmeta, if_neg hrow, if_neg fun h => hcell h.1]

omit hunescape in
theorem readEnd_other {name : List Char} {local' : String}
    (hname : localName name = local') (hrow : local' ≠ "row")
    (hcell : local' ≠ "cell") (p : Preview) : p.readEnd name = p := by
  unfold Preview.readEnd
  rw [hname, if_neg hcell, if_neg hrow]

theorem run_column {column : String} {n : Node} (h : ShowsColumn column n)
    (p : Preview) :
    run r p n.tagEvents = { p with columns := p.columns ++ [column] } := by
  cases h with
  | empty hname hvalue =>
      show p.readEmpty r _ _ = _
      unfold Preview.readEmpty
      rw [if_pos hname, attrNamed_valued hunescape hvalue]
      rfl
  | elem hname hvalue hns =>
      rw [run_elem, run_fillers hunescape hns,
        readEnd_other hname (by decide) (by decide)]
      unfold Preview.readStart
      rw [if_pos hname, attrNamed_valued hunescape hvalue]
      rfl

theorem run_columns {columns : List String} {ns : List Node}
    (h : Spaced ShowsColumn columns ns) (p : Preview) :
    run r p (nodesTagEvents ns)
      = { p with columns := p.columns ++ columns } := by
  induction h generalizing p with
  | nil => rw [List.append_nil]; rfl
  | filler hn _ ih => rw [run_nodes_cons, run_misc hunescape hn, ih]
  | item hn _ ih =>
      rw [run_nodes_cons, run_column hunescape hn, ih, List.append_assoc]
      rfl

-- ===================================================================== cells

/-- What a row has under its columns. -/
def entriesOf (columns values : List String) : List (String × Value) :=
  (columns.zip values).map fun cv => (cv.1, .string cv.2)

omit hunescape in
theorem entriesOf_keys {columns values : List String}
    (hlen : values.length = columns.length) :
    (entriesOf columns values).map Prod.fst = columns := by
  unfold entriesOf
  rw [List.map_map]
  exact List.map_fst_zip hlen.ge

omit hunescape in
theorem ofEntries_entriesOf_ne {columns values : List String}
    (hne : columns ≠ []) (hlen : values.length = columns.length) :
    Map.ofEntries (entriesOf columns values) ≠ [] := by
  intro hnil
  have hentries : entriesOf columns values ≠ [] := fun h => hne (by
    rw [← entriesOf_keys hlen, h, List.map_nil])
  obtain ⟨e, es, hcons⟩ := List.exists_cons_of_ne_nil hentries
  have hsome := Map.isSome_get_ofEntries (hcons ▸ List.mem_cons_self : e ∈ _)
  rw [hnil] at hsome
  cases hsome

omit hunescape in
theorem put_eq {p : Preview} (h : p.curCellIdx < p.columns.length)
    (value : String) :
    p.put value = { p with
      curRow := p.curRow.insert (p.columns[p.curCellIdx]) (.string value) } := by
  unfold Preview.put
  rw [List.getElem?_eq_getElem h]

/-- A cell puts its value and goes on to the next column. -/
theorem run_cell {value : String} {n : Node} (h : ShowsCell value n)
    {p : Preview} (hrow : p.inRow = true) (hcell : p.inCell = false)
    (hidx : p.curCellIdx < p.columns.length) :
    ∃ text, run r p n.tagEvents
      = { (p.put value).next with curCellText := text } := by
  have hempty : ∀ {tag : Tag}, localName tag.name = "cell" →
      attrNamed r tag.pairs "value" = some value
        ∨ attrNamed r tag.pairs "value" = none ∧ value = "" →
      ∃ text, run r p (Node.empty tag).tagEvents
        = { (p.put value).next with curCellText := text } := by
    intro tag hname hattr
    refine ⟨p.curCellText, ?_⟩
    show p.readEmpty r _ _ = _
    unfold Preview.readEmpty
    rw [if_neg (by rw [hname]; decide), if_pos hname]
    rcases hattr with hattr | ⟨hattr, rfl⟩
    · rw [hattr]
      show (p.put value).next = _
      rw [put_eq hidx]
      rfl
    · rw [hattr]
      show (if _ then (p.put "").next else p) = _
      rw [if_pos hidx, put_eq hidx]
      rfl
  -- what an open cell has read before its end
  have helem : ∀ {tag : Tag} {ns : List Node} {endPad : List Char} (text : String),
      localName tag.name = "cell" →
      (attrNamed r tag.pairs "value").getD "" = text →
      (∀ q : Preview, q.inCell = true → q.curCellText = text →
        run r q (nodesTagEvents ns) = { q with curCellText := value }) →
      ∃ text, run r p (Node.elem tag ns endPad).tagEvents
        = { (p.put value).next with curCellText := text } := by
    intro tag ns endPad text hname hattr hns
    refine ⟨"", ?_⟩
    have hstart : p.readStart r tag.name tag.pairs
        = { p with inCell := true, curCellText := text } := by
      unfold Preview.readStart
      rw [if_neg (by rw [hname]; decide), if_neg (by rw [hname]; decide),
        if_pos ⟨hname, hrow⟩, hattr]
    have hput : ({ p with inCell := true, curCellText := value } : Preview).put
        value = { p with
          inCell := true
          curCellText := value
          curRow := p.curRow.insert (p.columns[p.curCellIdx])
            (.string value) } :=
      put_eq (p := { p with inCell := true, curCellText := value }) hidx value
    rw [run_elem, hstart, hns _ rfl rfl]
    unfold Preview.readEnd
    rw [if_pos hname, if_pos ⟨rfl, hidx⟩, hput, put_eq hidx]
    unfold Preview.next
    rw [← hcell]
  cases h with
  | attrEmpty hname hvalue =>
      exact hempty hname (.inl (attrNamed_valued hunescape hvalue))
  | blankEmpty hname hno hvalue =>
      exact hempty hname (.inr ⟨attrNamed_without hno, hvalue⟩)
  | attr hname hvalue hns =>
      refine helem value hname
        (congrArg (Option.getD · "") (attrNamed_valued hunescape hvalue)) ?_
      intro q _ hq
      rw [run_fillers hunescape hns, ← hq]
  | blank hname hno hns hvalue =>
      subst hvalue
      refine helem "" hname
        (congrArg (Option.getD · "") (attrNamed_without hno)) ?_
      intro q _ hq
      rw [run_fillers hunescape hns, ← hq]
  | @text tag s t endPad hname hno ht htrim =>
      refine helem "" hname
        (congrArg (Option.getD · "") (attrNamed_without hno)) ?_
      intro q hin hq
      show q.readText r s = _
      unfold Preview.readText
      simp only [hunescape ht, Option.getD_some, htrim, String.ofList_toList]
      by_cases hnil : value.toList = []
      · rw [if_neg fun h => h.2 hnil, String.toList_eq_nil_iff.mp hnil, ← hq]
      · exact if_pos ⟨hin, hnil⟩

theorem run_cells {values : List String} {ns : List Node}
    (h : Spaced ShowsCell values ns) {p : Preview} (hrow : p.inRow = true)
    (hcell : p.inCell = false)
    (hlen : p.curCellIdx + values.length ≤ p.columns.length) :
    ∃ text, run r p (nodesTagEvents ns) = { p with
      curRow := (entriesOf (p.columns.drop p.curCellIdx) values).foldl
        (fun m e => m.insert e.1 e.2) p.curRow
      curCellIdx := p.curCellIdx + values.length
      curCellText := text } := by
  induction h generalizing p with
  | nil =>
      refine ⟨p.curCellText, ?_⟩
      unfold entriesOf
      rw [List.zip_nil_right]
      rfl
  | filler hn _ ih =>
      rw [run_nodes_cons, run_misc hunescape hn]
      exact ih hrow hcell hlen
  | @item value values n ns hn _ ih =>
      rw [List.length_cons] at hlen
      have hidx : p.curCellIdx < p.columns.length := by omega
      obtain ⟨text, hone⟩ := run_cell hunescape hn hrow hcell hidx
      rw [put_eq hidx] at hone
      have hnext := ih (p := { (p.put value).next with curCellText := text })
        (by rw [put_eq hidx]; exact hrow) (by rw [put_eq hidx]; exact hcell)
        (by
          rw [put_eq hidx]
          show p.curCellIdx + 1 + values.length ≤ p.columns.length
          omega)
      rw [put_eq hidx] at hnext
      obtain ⟨text', hrest⟩ := hnext
      refine ⟨text', ?_⟩
      have hentries : entriesOf (p.columns.drop p.curCellIdx) (value :: values)
          = (p.columns[p.curCellIdx], .string value)
            :: entriesOf (p.columns.drop (p.curCellIdx + 1)) values := by
        unfold entriesOf
        rw [List.drop_eq_getElem_cons hidx, List.zip_cons_cons, List.map_cons]
      have hcount : p.curCellIdx + (values.length + 1)
          = p.curCellIdx + 1 + values.length := by omega
      rw [run_nodes_cons, hone, hrest, hentries, List.foldl_cons,
        List.length_cons, hcount]
      rfl

-- ====================================================================== rows

/-- A row is added under the columns. -/
theorem run_row {values : List String} {n : Node} (h : ShowsRow values n)
    {p : Preview} (hcell : p.inCell = false) (hne : p.columns ≠ [])
    (hlen : values.length = p.columns.length) :
    (run r p n.tagEvents).rows
        = p.rows ++ [⟨Map.ofEntries (entriesOf p.columns values)⟩]
      ∧ (run r p n.tagEvents).columns = p.columns
      ∧ (run r p n.tagEvents).inCell = false := by
  cases h with
  | @intro tag pre post cells endPad hname hpre hpost hcells =>
      cases hcells with
      | @intro cellsTag ns cellsPad hcellsName hns =>
          have hstart : p.readStart r tag.name tag.pairs
              = { p with inRow := true, curCellIdx := 0, curRow := [] } := by
            unfold Preview.readStart
            rw [if_neg (by rw [hname]; decide), if_pos hname]
          obtain ⟨text, hrun⟩ := run_cells hunescape hns
            (p := { p with inRow := true, curCellIdx := 0, curRow := [] }) rfl
            hcell (by
              show 0 + values.length ≤ p.columns.length
              omega)
          have hfull := ofEntries_entriesOf_ne hne hlen
          rw [run_elem, hstart, nodesTagEvents_append, run_append,
            run_fillers hunescape hpre, run_nodes_cons, run_elem,
            readStart_other hcellsName (by decide) (by decide) (by decide),
            hrun, readEnd_other hcellsName (by decide) (by decide),
            run_fillers hunescape hpost]
          unfold Preview.readEnd
          rw [if_neg (by rw [hname]; decide), if_pos hname,
            if_pos ⟨rfl, hfull⟩]
          exact ⟨rfl, rfl, hcell⟩

theorem run_rows {rows : List (List String)} {ns : List Node}
    (h : Spaced ShowsRow rows ns) {p : Preview} (hcell : p.inCell = false)
    (hne : p.columns ≠ [])
    (hlen : ∀ values ∈ rows, values.length = p.columns.length) :
    (run r p (nodesTagEvents ns)).rows = p.rows ++ rows.map fun values =>
      ⟨Map.ofEntries (entriesOf p.columns values)⟩ := by
  induction h generalizing p with
  | nil => exact (List.append_nil _).symm
  | filler hn _ ih =>
      rw [run_nodes_cons, run_misc hunescape hn]
      exact ih hcell hne hlen
  | item hn _ ih =>
      obtain ⟨hvalues, hrows⟩ := List.forall_mem_cons.mp hlen
      obtain ⟨hrow, hcolumns, hcell'⟩ :=
        run_row hunescape hn hcell hne hvalues
      rw [run_nodes_cons, ih hcell' (hcolumns ▸ hne)
        (fun values hv => hcolumns ▸ hrows values hv), hrow, hcolumns,
        List.append_assoc]
      rfl

/-- The table's own events. -/
theorem run_table {columns : List String} {rows : List (List String)}
    {root : Node} (h : ShowsTable columns rows root) (hne : columns ≠ [])
    (hlen : ∀ values ∈ rows, values.length = columns.length) :
    (run r .initial root.tagEvents).rows = rows.map fun values =>
      ⟨Map.ofEntries (entriesOf columns values)⟩ := by
  cases h with
  | @intro tag columnsTag rowsTag pre mid post cs rs endPad columnsPad rowsPad
      hname hcolumnsName hrowsName hpre hmid hpost hcolumns hrows =>
      rw [run_elem, readStart_other hname (by decide) (by decide) (by decide),
        readEnd_other hname (by decide) (by decide), nodesTagEvents_append,
        run_append, run_fillers hunescape hpre, run_nodes_cons, run_elem,
        readStart_other hcolumnsName (by decide) (by decide) (by decide),
        run_columns hunescape hcolumns,
        readEnd_other hcolumnsName (by decide) (by decide),
        nodesTagEvents_append, run_append, run_fillers hunescape hmid,
        run_nodes_cons, run_elem,
        readStart_other hrowsName (by decide) (by decide) (by decide),
        readEnd_other hrowsName (by decide) (by decide),
        run_fillers hunescape hpost]
      exact run_rows hunescape hrows rfl hne hlen

end Events

/-- Nothing outside the root changes the rows, or anything but a cell. -/
theorem run_outside {r : TagReader} {es : List TagEvent}
    (h : ∀ e ∈ es, e.isOutside = true) (p : Preview) :
    (run r p es).rows = p.rows
      ∧ (p.inCell = false → run r p es = p) := by
  induction es generalizing p with
  | nil => exact ⟨rfl, fun _ => rfl⟩
  | cons e es ih =>
      obtain ⟨he, hes⟩ := List.forall_mem_cons.mp h
      have hstep : (p.read r e).rows = p.rows
          ∧ (p.inCell = false → p.read r e = p) := by
        cases e with
        | start name attrs => cases he
        | empty name attrs => cases he
        | «end» name => cases he
        | cdata s => cases he
        | other => exact ⟨rfl, fun _ => rfl⟩
        | text s =>
            show (p.readText r s).rows = p.rows ∧ (_ → p.readText r s = p)
            unfold Preview.readText
            refine ⟨?_, fun hcell => if_neg fun h => ?_⟩
            · dsimp only
              split <;> rfl
            · rw [hcell] at h
              cases h.1
      obtain ⟨hrows, hsame⟩ := ih hes (p.read r e)
      refine ⟨hrows.trans hstep.1, fun hcell => ?_⟩
      have hstep' := hstep.2 hcell
      show run r (p.read r e) es = p
      rw [hsame (hstep'.symm ▸ hcell), hstep']

/-- Each column has its value in a row, and nothing else is there. -/
def MapsTo (columns values : List String) (row : TableRow) : Prop :=
  (∀ cv ∈ columns.zip values, row.values.get cv.1 = some (.string cv.2))
    ∧ ∀ key, key ∉ columns → row.values.get key = none

theorem mapsTo_entriesOf {columns values : List String}
    (hnd : columns.Nodup) (hlen : values.length = columns.length) :
    MapsTo columns values ⟨Map.ofEntries (entriesOf columns values)⟩ := by
  have hkeys := entriesOf_keys hlen
  have hkeysNodup : ((entriesOf columns values).map Prod.fst).Nodup :=
    hkeys.symm ▸ hnd
  refine ⟨fun cv hcv => ?_, fun key hkey => ?_⟩
  · have hmem : (cv.1, Value.string cv.2) ∈ entriesOf columns values :=
      List.mem_map.mpr ⟨cv, hcv, rfl⟩
    obtain ⟨w, hw⟩ := Option.isSome_iff_exists.mp (Map.isSome_get_ofEntries hmem)
    have heq := List.inj_on_of_nodup_map hkeysNodup (Map.mem_of_get_ofEntries hw)
      hmem rfl
    show (Map.ofEntries _).get cv.1 = _
    rw [hw, (Prod.mk.inj heq).2]
  · cases hget : (Map.ofEntries (entriesOf columns values)).get key with
    | none => rfl
    | some w =>
        have hmem := List.mem_map_of_mem (f := Prod.fst)
          (Map.mem_of_get_ofEntries hget)
        rw [hkeys] at hmem
        exact absurd hmem hkey

/-- The rows of a table are read as they are written, in order, with each
value under its column. -/
theorem parseDataPreview_rows {r : TagReader} {d : Document} (hr : r.Reads d)
    {columns : List String} {rows : List (List String)} (hne : columns ≠ [])
    (hnd : columns.Nodup)
    (hlen : ∀ values ∈ rows, values.length = columns.length)
    (hd : ShowsTable columns rows d.root) :
    List.Forall₂ (MapsTo columns) rows (parseDataPreview r d.render) := by
  obtain ⟨pre, post, hout, hevents⟩ := hr.events
  have hpre : ∀ e ∈ pre, e.isOutside = true := fun e he =>
    hout e (List.mem_append_left _ he)
  have hpost : ∀ e ∈ post, e.isOutside = true := fun e he =>
    hout e (List.mem_append_right _ he)
  have hrows : parseDataPreview r d.render = rows.map fun values =>
      ⟨Map.ofEntries (entriesOf columns values)⟩ := by
    unfold parseDataPreview
    rw [hevents, loop_ok, run_append, (run_outside hpre .initial).2 rfl,
      run_append, (run_outside hpost _).1]
    exact run_table hr.unescape hd hne hlen
  rw [hrows, List.forall₂_map_right_iff, List.forall₂_same]
  exact fun values hv => mapsTo_entriesOf hnd (hlen values hv)

/-- A tag whose attributes stand behind one blank each. -/
def plainTag (name : String) (attrs : List (String × String)) : Tag where
  name := name.toList
  attrs := attrs.map fun a => ⟨[' '], a.1.toList, [], [], '"', a.2.toList⟩
  pad := []

theorem plainTag_legal {name : String} {attrs : List (String × String)}
    (hname : isName name.toList = true)
    (hattrs : ∀ a ∈ attrs, isName a.1.toList = true
      ∧ a.2.toList.all (fun c => isXmlChar c && c != '<' && c != '"'
        && c != '&') = true)
    (hnd : (attrs.map fun a => a.1.toList).Nodup) :
    (plainTag name attrs).Legal false where
  name := hname
  attrs := by
    intro a ha
    obtain ⟨x, hx, rfl⟩ := List.mem_map.mp ha
    obtain ⟨hkey, hvalue⟩ := hattrs x hx
    have hchars : ∀ c ∈ x.2.toList,
        isXmlChar c = true ∧ c ≠ '<' ∧ c ≠ '"' ∧ c ≠ '&' := by
      intro c hc
      have hall := List.all_eq_true.mp hvalue c hc
      simp only [Bool.and_eq_true, bne_iff_ne, ne_eq] at hall
      exact ⟨hall.1.1.1, hall.1.1.2, hall.1.2, hall.2⟩
    exact
      { pre_ne := List.cons_ne_nil _ _
        pre := List.forall_mem_singleton.mpr rfl
        name := hkey
        eqPre := List.forall_mem_nil _
        eqPost := List.forall_mem_nil _
        quote := .inl rfl
        unquoted := fun hm => (hchars _ hm).2.2.1 rfl
        noMarkup := fun hm => (hchars _ hm).2.1 rfl
        chars := fun c hc => (hchars c hc).1
        refs := by
          unfold RefsLegal
          rw [unescapeGo_plain fun hm => (hchars _ hm).2.2.2 rfl]
          rfl }
  unique := by
    have hmap : (plainTag name attrs).attrs.map Attr.name
        = attrs.map fun a => a.1.toList := by simp [plainTag]
    rw [hmap]
    exact hnd
  pad := List.forall_mem_nil _

/-- Two columns and two rows, with a cell in each of four shapes. -/
def mixedPreview : Document where
  decl := none
  misc := []
  doctype := none
  misc' := []
  root := .elem (plainTag "d:tableData" [])
    [.elem (plainTag "d:columns" [])
        [.empty (plainTag "d:metadata" [("a:name", "BUKRS"), ("a:type", "C")]),
          .empty (plainTag "d:metadata" [("a:name", "BUTXT")])] [],
      .elem (plainTag "d:rows" [])
        [.elem (plainTag "d:row" [])
            [.elem (plainTag "d:cells" [])
              [.empty (plainTag "d:cell" [("a:value", "1000")]),
                .elem (plainTag "d:cell" []) [.text " Acme ".toList] []] []] [],
          .elem (plainTag "d:row" [])
            [.elem (plainTag "d:cells" [])
              [.elem (plainTag "d:cell" [("a:value", "2000")]) [] [],
                .empty (plainTag "d:cell" [])] []] []] []] []
  epilog := []

theorem mixedPreview_shows :
    ShowsTable ["BUKRS", "BUTXT"] [["1000", "Acme"], ["2000", ""]]
      mixedPreview.root := by
  have hnone : Fillers [] := List.forall_mem_nil _
  have hvalued : ∀ {name key value k v : String} {rest : List (String × String)},
      localName k.toList = key → unescape v.toList = some value.toList →
      Valued (plainTag name ((k, v) :: rest)) key value := by
    intro name key value k v rest hkey hvalue
    exact ⟨_, List.find?_cons_of_pos (beq_iff_eq.mpr hkey), hvalue⟩
  have hwithout : ∀ {name key : String}, Without (plainTag name []) key :=
    fun a ha => by cases ha
  refine @ShowsTable.intro _ _ _ _ _ [] [] [] _ _ _ _ _ (by decide)
    (by decide) (by decide) hnone hnone hnone ?_ ?_
  · exact .item (.empty (by decide) (hvalued (by decide) (by decide)))
      (.item (.empty (by decide) (hvalued (by decide) (by decide))) .nil)
  · refine .item ?_ (.item ?_ .nil)
    · exact @ShowsRow.intro _ _ [] [] _ _ (by decide) hnone hnone
        (.intro (by decide)
          (.item (.attrEmpty (by decide) (hvalued (by decide) (by decide)))
            (.item (.text (t := " Acme ".toList) (by decide) hwithout (by decide)
              (by decide)) .nil)))
    · exact @ShowsRow.intro _ _ [] [] _ _ (by decide) hnone hnone
        (.intro (by decide)
          (.item (.attr (by decide) (hvalued (by decide) (by decide)) hnone)
            (.item (.blankEmpty (by decide) hwithout rfl) .nil)))

theorem mixedPreview_legal : mixedPreview.Legal := by
  have hattr : ∀ {k v : String}, isName k.toList = true →
      v.toList.all (fun c => isXmlChar c && c != '<' && c != '"' && c != '&')
        = true → ∀ a ∈ [(k, v)], isName a.1.toList = true
      ∧ a.2.toList.all (fun c => isXmlChar c && c != '<' && c != '"'
        && c != '&') = true := by
    intro k v hk hv
    exact List.forall_mem_singleton.mpr ⟨hk, hv⟩
  have hbare : ∀ {name : String}, isName name.toList = true →
      (plainTag name []).Legal false := fun hname =>
    plainTag_legal hname (List.forall_mem_nil _) List.nodup_nil
  have hone : ∀ {name k v : String}, isName name.toList = true →
      isName k.toList = true →
      v.toList.all (fun c => isXmlChar c && c != '<' && c != '"' && c != '&')
        = true → (plainTag name [(k, v)]).Legal false := fun hname hk hv =>
    plainTag_legal hname (hattr hk hv) (List.nodup_singleton _)
  have helem : ∀ {tag : Tag} {ns : List Node}, tag.Legal false →
      nodesLegal false ns → (Node.elem tag ns []).Legal false :=
    fun htag hns => ⟨htag, hns, List.forall_mem_nil _⟩
  have hnodes : ∀ {n : Node} {ns : List Node}, n.Legal false →
      nodesLegal false ns → n.isText = false → nodesLegal false (n :: ns) :=
    fun hn hns hnot => ⟨hn, hns, fun h => by rw [hnot] at h; cases h⟩
  have hmeta : (plainTag "d:metadata" [("a:name", "BUKRS"),
      ("a:type", "C")]).Legal false :=
    plainTag_legal (by decide) (List.forall_mem_cons.mpr
      ⟨⟨by decide, by decide⟩, hattr (by decide) (by decide)⟩) (by decide)
  have htext : nodesLegal false [.text " Acme ".toList] := by
    have hchars : XmlChars " Acme ".toList := List.all_eq_true.mp (by decide)
    refine ⟨⟨by decide, by decide, by decide, hchars, ?_⟩, trivial,
      fun _ m hm => by cases hm⟩
    unfold RefsLegal
    rw [unescapeGo_plain (by decide)]
    rfl
  exact
    { decl := fun _ h => by cases h
      misc := List.forall_mem_nil _
      doctype := fun _ h => by cases h
      misc' := List.forall_mem_nil _
      isElem := rfl
      epilog := List.forall_mem_nil _
      root := by
        refine helem (hbare (by decide)) (hnodes (helem (hbare (by decide))
          (hnodes hmeta (hnodes (hone (by decide) (by decide) (by decide))
            trivial rfl) rfl)) (hnodes (helem (hbare (by decide))
          (hnodes ?_ (hnodes ?_ trivial rfl) rfl)) trivial rfl) rfl)
        · exact helem (hbare (by decide)) (hnodes (helem (hbare (by decide))
            (hnodes (hone (by decide) (by decide) (by decide))
              (hnodes (helem (hbare (by decide)) htext) trivial rfl) rfl))
            trivial rfl)
        · exact helem (hbare (by decide)) (hnodes (helem (hbare (by decide))
            (hnodes (helem (hone (by decide) (by decide) (by decide)) trivial)
              (hnodes (hbare (by decide)) trivial rfl) rfl)) trivial rfl) }

/-- The rows of that table. -/
theorem parseDataPreview_rows_mixed :
    List.Forall₂ (MapsTo ["BUKRS", "BUTXT"]) [["1000", "Acme"], ["2000", ""]]
      (parseDataPreview lexTagReader mixedPreview.render) :=
  parseDataPreview_rows (lexTagReader_reads mixedPreview_legal)
    (List.cons_ne_nil _ _) (by decide) (List.forall_mem_cons.mpr
      ⟨rfl, List.forall_mem_singleton.mpr rfl⟩) mixedPreview_shows

end SapAutomate.Adt
