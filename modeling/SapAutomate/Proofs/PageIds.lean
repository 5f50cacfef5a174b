/-
When the pages of a crawl keep apart in the store.

A page of a directory is known by the stem of its file alone, whatever
directory it is in, and a fetched one by the path of its URL, without the
query and with `_` for `/`. So the documents of a crawl keep apart just
where the stems, or the paths read so, do.
-/
import SapAutomate.Ingest.Crawler
import SapAutomate.Proofs.Reingest
import Mathlib.Data.List.Nodup

namespace SapAutomate.Ingest

open Kb

variable {contentHash : String → String} {parseDocument : String → Html}
  {lossy : OsStr → String} {crawler : HelpPortalCrawler}

-- ================================================================= store

/-- The chunks of a document. -/
def chunksIn (F : Type) (cfg : ChunkerConfig) (doc : Document) :
    List (Chunk F) :=
  (chunkDocument doc cfg).getD []

/-- No two documents have the same id, and a store that is given all of
them and their chunks has each document, and each of its chunks. -/
def KeptApart (F : Type) (contentHash : String → String)
    (cfg : ChunkerConfig) (docs : List Document) : Prop :=
  (docs.map Document.id).Nodup
  ∧ ∀ doc ∈ docs,
    (InMemoryKb.new.upsert contentHash
      ⟨docs, docs.flatMap (chunksIn F cfg)⟩).documents doc.id = some doc
    ∧ ∀ c ∈ chunksIn F cfg doc,
      (InMemoryKb.new.upsert contentHash
        ⟨docs, docs.flatMap (chunksIn F cfg)⟩).chunks c.id = some c

theorem insertDocuments_documents {F : Type} (docs : List Document)
    (kb : InMemoryKb F) :
    (docs.foldl InMemoryKb.insertDocument kb).documents
      = kb.documents.putAll Document.id docs := by
  induction docs generalizing kb with
  | nil => rfl
  | cons d docs ih => exact ih (kb.insertDocument d)

/-- Where keys are distinct, one element has the key of each. -/
theorem filter_key {α κ : Type} [DecidableEq κ] {key : α → κ} {xs : List α}
    (hnd : (xs.map key).Nodup) {x : α} (hx : x ∈ xs) :
    xs.filter (fun y => key y = key x) = [x] := by
  induction xs with
  | nil => cases hx
  | cons y xs ih =>
      rw [List.map_cons, List.nodup_cons] at hnd
      obtain ⟨hy, hnd⟩ := hnd
      rcases List.mem_cons.mp hx with rfl | hx
      · have hrest : xs.filter (fun y => key y = key x) = [] := by
          rw [List.filter_eq_nil_iff]
          intro z hz hkey
          have hkey : key z = key x := by simpa using hkey
          exact hy (List.mem_map.mpr ⟨z, hz, hkey⟩)
        rw [List.filter_cons_of_pos (by simp), hrest]
      · have hne : key y ≠ key x := by
          intro hkey
          exact hy (List.mem_map.mpr ⟨x, hx, hkey.symm⟩)
        rw [List.filter_cons_of_neg (by simpa using hne), ih hnd hx]

theorem mem_chunksIn {F : Type} {cfg : ChunkerConfig} {doc : Document}
    {c : Chunk F} (h : c ∈ chunksIn F cfg doc) :
    ∃ i, c.id = chunkId doc.id i := by
  unfold chunksIn at h
  cases hcs : chunkDocument (F := F) doc cfg with
  | none =>
      rw [hcs] at h
      cases h
  | some cs =>
      rw [hcs] at h
      obtain ⟨i, hi⟩ := List.mem_iff_getElem?.mp h
      exact ⟨i, (chunkDocument_get hcs hi).1⟩

theorem chunksIn_nodup (F : Type) (cfg : ChunkerConfig) (doc : Document) :
    ((chunksIn F cfg doc).map Chunk.id).Nodup := by
  unfold chunksIn
  cases hcs : chunkDocument (F := F) doc cfg with
  | none => exact List.nodup_nil
  | some cs => exact chunkDocument_nodup hcs

/-- Where the documents' ids are distinct, so are those of their chunks. -/
theorem allChunks_nodup (F : Type) (cfg : ChunkerConfig)
    {docs : List Document} (h : (docs.map Document.id).Nodup) :
    ((docs.flatMap (chunksIn F cfg)).map Chunk.id).Nodup := by
  rw [List.map_flatMap, List.nodup_flatMap]
  constructor
  · intro doc _
    exact chunksIn_nodup F cfg doc
  · have hne : docs.Pairwise fun d d' => d.id ≠ d'.id :=
      List.pairwise_map.mp h
    refine hne.imp fun {d d'} hdd => ?_
    intro id hid hid'
    obtain ⟨c, hc, rfl⟩ := List.mem_map.mp hid
    obtain ⟨c', hc', hsame⟩ := List.mem_map.mp hid'
    obtain ⟨i, hi⟩ := mem_chunksIn hc
    obtain ⟨j, hj⟩ := mem_chunksIn hc'
    exact hdd (chunkId_inj.mp (hi.symm.trans (hsame.symm.trans hj))).1

/-- Distinct ids are enough. -/
theorem keptApart_iff (F : Type) (contentHash : String → String)
    (cfg : ChunkerConfig) (docs : List Document) :
    KeptApart F contentHash cfg docs ↔ (docs.map Document.id).Nodup := by
  refine ⟨fun h => h.1, fun hnd => ⟨hnd, fun doc hdoc => ⟨?_, fun c hc => ?_⟩⟩⟩
  · show (List.foldl _ (docs.foldl InMemoryKb.insertDocument _)
      _).documents doc.id = _
    rw [InMemoryKb.insertChunks_documents, insertDocuments_documents,
      Table.putAll_apply, filter_key hnd hdoc]
    rfl
  · have hmem : c ∈ docs.flatMap (chunksIn F cfg) :=
      List.mem_flatMap.mpr ⟨doc, hdoc, hc⟩
    rw [(upsert_chunks (InMemoryKb.indexed_new contentHash) docs _).2,
      filter_key (allChunks_nodup F cfg hnd) hmem]
    rfl

-- ================================================================= files

mutual

/-- The pages of an entry, in the order of the walk. -/
def pagesOf (parseDocument : String → Html) (lossy : OsStr → String)
    (p : FilePath) : FsEntry → List (FilePath × ParsedPage)
  | .file content =>
      if p.fileName.bind extension = some htmlExtension then
        match readPage parseDocument content with
        | .ok page => [(p, page)]
        | .error _ => []
      else []
  | .dir entries => pagesIn parseDocument lossy p entries
  | _ => []

/-- The pages in a directory: the last entry comes first. -/
def pagesIn (parseDocument : String → Html) (lossy : OsStr → String)
    (p : FilePath) : List (OsStr × FsEntry) → List (FilePath × ParsedPage)
  | [] => []
  | (name, entry) :: entries =>
      pagesIn parseDocument lossy p entries
        ++ pagesOf parseDocument lossy (p.join lossy name) entry

end

mutual

/-- Everything below an entry can be listed. -/
def FsEntry.Listable : FsEntry → Prop
  | .unreadable _ => False
  | .closedDir _ => False
  | .file _ => True
  | .dir entries => AllListable entries

def AllListable : List (OsStr × FsEntry) → Prop
  | [] => True
  | (_, entry) :: entries => entry.Listable ∧ AllListable entries

end

mutual

/-- No directory has two entries of one name. -/
def FsEntry.DistinctPaths : FsEntry → Prop
  | .dir entries => (entries.map Prod.fst).Nodup ∧ AllDistinctPaths entries
  | _ => True

def AllDistinctPaths : List (OsStr × FsEntry) → Prop
  | [] => True
  | (_, entry) :: entries => entry.DistinctPaths ∧ AllDistinctPaths entries

end

theorem pushed_cons (lossy : OsStr → String) (p : FilePath)
    (e : OsStr × FsEntry) (entries : List (OsStr × FsEntry)) :
    pushed lossy p (e :: entries)
      = pushed lossy p entries ++ [(p.join lossy e.1, e.2)] := by
  unfold pushed
  rw [List.map_cons, List.reverse_cons]

theorem flatMap_pushed (parseDocument : String → Html)
    (lossy : OsStr → String) (p : FilePath)
    (entries : List (OsStr × FsEntry)) :
    (pushed lossy p entries).flatMap
        (fun s => pagesOf parseDocument lossy s.1 s.2)
      = pagesIn parseDocument lossy p entries := by
  induction entries with
  | nil => rw [pagesIn]; rfl
  | cons e entries ih =>
      rw [pushed_cons, List.flatMap_append, ih, pagesIn, List.flatMap_cons,
        List.flatMap_nil, List.append_nil]

theorem listable_pushed (lossy : OsStr → String) (p : FilePath)
    (entries : List (OsStr × FsEntry)) :
    (∀ s ∈ pushed lossy p entries, s.2.Listable) ↔ AllListable entries := by
  induction entries with
  | nil => exact iff_of_true (fun s hs => nomatch hs) trivial
  | cons e entries ih =>
      rw [pushed_cons, List.forall_mem_append, ih, AllListable,
        List.forall_mem_singleton, and_comm]

/-- A page that is read is found. -/
theorem pagesOf_page {p : FilePath} {content : Except String String}
    {doc : Document} (hext : p.fileName.bind extension = some htmlExtension)
    (h : crawler.crawlFile contentHash parseDocument p content = .ok doc) :
    (pagesOf parseDocument lossy p (.file content)).map
      (fun x => crawler.fileDocument contentHash x.1 x.2) = [doc] := by
  rw [pagesOf, if_pos hext]
  unfold HelpPortalCrawler.crawlFile at h
  cases hpage : readPage parseDocument content with
  | error e =>
      rw [hpage] at h
      cases h
  | ok page =>
      rw [hpage] at h
      rw [← Except.ok.inj h]
      rfl

/-- One that is not read is skipped. -/
theorem pagesOf_skipped {p : FilePath} {content : Except String String}
    {e : CrawlError}
    (h : crawler.crawlFile contentHash parseDocument p content = .error e) :
    pagesOf parseDocument lossy p (.file content) = [] := by
  rw [pagesOf]
  unfold HelpPortalCrawler.crawlFile at h
  cases hpage : readPage parseDocument content with
  | error e =>
      split <;> rfl
  | ok page =>
      rw [hpage] at h
      cases h

/-- What the walk finds: the pages of its stack, where all of it can be
listed. -/
theorem walk_ok (stack : List (FilePath × FsEntry)) (docs : List Document) :
    crawler.walk contentHash parseDocument lossy stack = .ok docs
      ↔ (∀ s ∈ stack, s.2.Listable)
        ∧ (stack.flatMap fun s => pagesOf parseDocument lossy s.1 s.2).map
          (fun x => crawler.fileDocument contentHash x.1 x.2) = docs := by
  fun_induction HelpPortalCrawler.walk contentHash parseDocument crawler lossy
    stack generalizing docs with
  | case1 =>
      rw [Except.ok.injEq]
      exact (and_iff_right fun s hs => nomatch hs).symm
  | case2 p reason stack =>
      refine iff_of_false nofun fun h => ?_
      have hlist := h.1 _ (List.mem_cons_self ..)
      rw [FsEntry.Listable] at hlist
      exact hlist
  | case3 p reason stack =>
      refine iff_of_false nofun fun h => ?_
      have hlist := h.1 _ (List.mem_cons_self ..)
      rw [FsEntry.Listable] at hlist
      exact hlist
  | case4 p entries stack ih =>
      rw [ih, List.forall_mem_append, listable_pushed, List.flatMap_append,
        flatMap_pushed, List.forall_mem_cons, List.flatMap_cons, pagesOf,
        FsEntry.Listable]
  | case5 p content stack hext doc hdoc ih =>
      rw [List.forall_mem_cons, List.flatMap_cons, List.map_append,
        pagesOf_page hext hdoc, FsEntry.Listable, true_and]
      cases hrest : crawler.walk contentHash parseDocument lossy stack with
      | error e =>
          refine iff_of_false nofun fun h => ?_
          have hok := (ih _).mpr ⟨h.1, rfl⟩
          rw [hrest] at hok
          cases hok
      | ok rest =>
          obtain ⟨hlist, hrest⟩ := (ih rest).mp hrest
          rw [hrest]
          show Except.ok (doc :: rest) = Except.ok docs ↔ _
          rw [Except.ok.injEq]
          exact (and_iff_right hlist).symm
  | case6 p content stack hext e hskip ih =>
      rw [ih, List.forall_mem_cons, List.flatMap_cons, pagesOf_skipped hskip,
        FsEntry.Listable, true_and, List.nil_append]
  | case7 p content stack hext ih =>
      rw [ih, List.forall_mem_cons, List.flatMap_cons, pagesOf, if_neg hext,
        FsEntry.Listable, true_and, List.nil_append]

/-- Ids with one domain's prefix. -/
theorem prefixed_inj {d : Domain} {s t : String} :
    d.collection ++ ":" ++ s = d.collection ++ ":" ++ t ↔ s = t :=
  String.append_right_inj _

/-- The documents of a directory with distinct paths keep apart. -/
def FilesApart (F : Type) (contentHash : String → String)
    (parseDocument : String → Html) (lossy : OsStr → String)
    (crawler : HelpPortalCrawler) (cfg : ChunkerConfig) (root : FilePath)
    (tree : FsEntry) : Prop :=
  tree.DistinctPaths → ∀ docs,
    crawler.crawlDirectory contentHash parseDocument lossy root tree = .ok docs →
    KeptApart F contentHash cfg docs

/-- No two of its pages have files of one stem. -/
def StemsDiffer (parseDocument : String → Html) (lossy : OsStr → String)
    (root : FilePath) (tree : FsEntry) : Prop :=
  tree.DistinctPaths → tree.Listable →
    ((pagesOf parseDocument lossy root tree).map fun x => x.1.idStem).Nodup

theorem filesApart_iff (F : Type) (contentHash : String → String)
    (parseDocument : String → Html) (lossy : OsStr → String)
    (crawler : HelpPortalCrawler) (cfg : ChunkerConfig) (root : FilePath)
    (tree : FsEntry) :
    FilesApart F contentHash parseDocument lossy crawler cfg root tree
      ↔ StemsDiffer parseDocument lossy root tree := by
  unfold FilesApart StemsDiffer
  refine imp_congr_right fun _ => ?_
  have hids : ∀ pages : List (FilePath × ParsedPage),
      ((pages.map fun x => crawler.fileDocument contentHash x.1 x.2).map
          Document.id).Nodup
        ↔ (pages.map fun x => x.1.idStem).Nodup := by
    intro pages
    unfold List.Nodup
    rw [List.map_map, List.pairwise_map, List.pairwise_map]
    exact List.Pairwise.iff fun x y => not_congr prefixed_inj
  have hcrawl : ∀ docs,
      crawler.crawlDirectory contentHash parseDocument lossy root tree
        = .ok docs
      ↔ tree.Listable ∧ (pagesOf parseDocument lossy root tree).map
        (fun x => crawler.fileDocument contentHash x.1 x.2) = docs := by
    intro docs
    unfold HelpPortalCrawler.crawlDirectory
    rw [walk_ok, List.forall_mem_singleton, List.flatMap_cons,
      List.flatMap_nil, List.append_nil]
  constructor
  · intro h hlist
    have hkept := h _ ((hcrawl _).mpr ⟨hlist, rfl⟩)
    exact (hids _).mp hkept.1
  · intro h docs hdocs
    obtain ⟨hlist, rfl⟩ := (hcrawl docs).mp hdocs
    exact (keptApart_iff F contentHash cfg _).mpr ((hids _).mpr (h hlist))

-- ================================================================== URLs

/-- A fetch of a URL. A URL that is none is not sent for. -/
structure Fetch (parseUrl : String → Option Url) where
  url : String
  previousEtag : Option String
  service : FetchRequest → FetchReply
  unsent : parseUrl url = none → ∀ r, ∃ reason, service r = .unsent reason

namespace Fetch

variable {parseUrl : String → Option Url}

/-- The page that comes of it. -/
def page (parseDocument : String → Html) (f : Fetch parseUrl) :
    Option (Option String × ParsedPage) :=
  match f.service ⟨f.url, f.previousEtag⟩ with
  | .page etag (.ok body) =>
      (parseHelpPortalHtml parseDocument body).toOption.map fun page =>
        (etag, page)
  | _ => none

/-- And its document. -/
def document (contentHash : String → String) (parseDocument : String → Html)
    (sha256 : String → Vector UInt8 32) (crawler : HelpPortalCrawler)
    (f : Fetch parseUrl) : Option Document :=
  match crawler.fetchUrl contentHash parseDocument parseUrl sha256 f.service
      f.url f.previousEtag with
  | .ok (some (doc, _)) => some doc
  | _ => none

theorem document_eq (contentHash : String → String)
    (parseDocument : String → Html) (sha256 : String → Vector UInt8 32)
    (crawler : HelpPortalCrawler) (f : Fetch parseUrl) :
    f.document contentHash parseDocument sha256 crawler
      = (f.page parseDocument).map fun x =>
        { pageDocument contentHash (deriveIdFromUrl parseUrl sha256 f.url
          crawler.domain) crawler.domain f.url x.2 with etag := x.1 } := by
  unfold document page HelpPortalCrawler.fetchUrl
  cases f.service ⟨f.url, f.previousEtag⟩ with
  | unsent reason => rfl
  | notModified => rfl
  | refused status => rfl
  | page etag body =>
      cases body with
      | error reason => rfl
      | ok body =>
          cases hpage : parseHelpPortalHtml parseDocument body with
          | error e => simp only [hpage]; rfl
          | ok page => simp only [hpage]; rfl

/-- A page comes of a URL that is one. -/
theorem parsed_of_page {f : Fetch parseUrl} {x : Option String × ParsedPage}
    (h : f.page parseDocument = some x) :
    ∃ u, parseUrl f.url = some u := by
  cases hurl : parseUrl f.url with
  | some u => exact ⟨u, rfl⟩
  | none =>
      obtain ⟨reason, hreason⟩ := f.unsent hurl ⟨f.url, f.previousEtag⟩
      unfold page at h
      rw [hreason] at h
      cases h

end Fetch

/-- Characters of paths that an id does not tell apart. -/
def SlashAlike (a b : Char) : Prop :=
  a = b ∨ (a = '/' ∧ b = '_') ∨ (a = '_' ∧ b = '/')

/-- Paths that an id does not tell apart: past their leading slashes, they
are alike up to `_` for `/`. -/
def PathsAlike (p q : List Char) : Prop :=
  List.Forall₂ SlashAlike (p.dropWhile (· = '/')) (q.dropWhile (· = '/'))

theorem slashAlike_iff (a b : Char) :
    (if a = '/' then '_' else a) = (if b = '/' then '_' else b)
      ↔ SlashAlike a b := by
  unfold SlashAlike
  by_cases ha : a = '/'
  · by_cases hb : b = '/'
    · rw [if_pos ha, if_pos hb]
      exact iff_of_true rfl (.inl (ha.trans hb.symm))
    · rw [if_pos ha, if_neg hb]
      constructor
      · intro h
        exact .inr (.inl ⟨ha, h.symm⟩)
      · rintro (h | ⟨-, h⟩ | ⟨-, h⟩)
        · exact absurd (h.symm.trans ha) hb
        · exact h.symm
        · exact absurd h hb
  · by_cases hb : b = '/'
    · rw [if_neg ha, if_pos hb]
      constructor
      · intro h
        exact .inr (.inr ⟨h, hb⟩)
      · rintro (h | ⟨h, -⟩ | ⟨h, -⟩)
        · exact absurd (h.trans hb) ha
        · exact absurd h ha
        · exact h
    · rw [if_neg ha, if_neg hb]
      constructor
      · exact .inl
      · rintro (h | ⟨h, -⟩ | ⟨-, h⟩)
        · exact h
        · exact absurd h ha
        · exact absurd h hb

theorem mangledPath_eq_iff (p q : List Char) :
    mangledPath p = mangledPath q ↔ PathsAlike p q := by
  unfold mangledPath PathsAlike
  generalize p.dropWhile (· = '/') = l
  generalize q.dropWhile (· = '/') = m
  induction l generalizing m with
  | nil =>
      cases m with
      | nil => exact iff_of_true rfl .nil
      | cons b m => exact iff_of_false nofun nofun
  | cons a l ih =>
      cases m with
      | nil => exact iff_of_false nofun nofun
      | cons b m =>
          rw [List.map_cons, List.map_cons, List.cons.injEq, ih,
            List.forall₂_cons, slashAlike_iff]

/-- URLs that differ in their path or their query. -/
def UrlsDiffer (parseUrl : String → Option Url) (url url' : String) : Prop :=
  ∀ u v, parseUrl url = some u → parseUrl url' = some v →
    u.path ≠ v.path ∨ u.query ≠ v.query

/-- The documents of pages at URLs that differ keep apart. -/
def UrlsApart (F : Type) (contentHash : String → String)
    (parseDocument : String → Html) (sha256 : String → Vector UInt8 32)
    (crawler : HelpPortalCrawler) (cfg : ChunkerConfig)
    {parseUrl : String → Option Url} (fetches : List (Fetch parseUrl)) : Prop :=
  (fetches.Pairwise fun f g => UrlsDiffer parseUrl f.url g.url) →
    KeptApart F contentHash cfg (fetches.filterMap
      (Fetch.document contentHash parseDocument sha256 crawler))

/-- No two of them have paths that are alike. -/
def PathsDiffer (parseDocument : String → Html)
    {parseUrl : String → Option Url} (fetches : List (Fetch parseUrl)) : Prop :=
  (fetches.Pairwise fun f g => UrlsDiffer parseUrl f.url g.url) →
    (fetches.filter fun f => (f.page parseDocument).isSome).Pairwise
      fun f g => ∀ u v, parseUrl f.url = some u → parseUrl g.url = some v →
        ¬ PathsAlike u.path v.path

theorem urlsApart_iff (F : Type) (contentHash : String → String)
    (parseDocument : String → Html) (sha256 : String → Vector UInt8 32)
    (crawler : HelpPortalCrawler) (cfg : ChunkerConfig)
    {parseUrl : String → Option Url} (fetches : List (Fetch parseUrl)) :
    UrlsApart F contentHash parseDocument sha256 crawler cfg fetches
      ↔ PathsDiffer parseDocument fetches := by
  unfold UrlsApart PathsDiffer
  refine imp_congr_right fun _ => ?_
  rw [keptApart_iff]
  unfold List.Nodup
  rw [List.pairwise_map, List.pairwise_filterMap, List.pairwise_filter]
  refine List.Pairwise.iff fun f g => ?_
  rw [Fetch.document_eq, Fetch.document_eq]
  cases hf : f.page parseDocument with
  | none => exact iff_of_true (fun d hd => nomatch hd) (fun h => nomatch h)
  | some x =>
      cases hg : g.page parseDocument with
      | none =>
          refine iff_of_true (fun d _ d' hd' => ?_) (fun _ h => ?_)
          · cases hd'
          · cases h
      | some y =>
          obtain ⟨u, hu⟩ := Fetch.parsed_of_page hf
          obtain ⟨v, hv⟩ := Fetch.parsed_of_page hg
          have hids : deriveIdFromUrl parseUrl sha256 f.url crawler.domain
                = deriveIdFromUrl parseUrl sha256 g.url crawler.domain
              ↔ PathsAlike u.path v.path := by
            unfold deriveIdFromUrl
            rw [hu, hv, prefixed_inj, String.ofList_inj, mangledPath_eq_iff]
          constructor
          · intro h _ _ u' v' hu' hv'
            obtain rfl : u = u' := Option.some.inj (hu.symm.trans hu')
            obtain rfl : v = v' := Option.some.inj (hv.symm.trans hv')
            exact fun halike => h _ rfl _ rfl (hids.mpr halike)
          · intro h d hd d' hd' hsame
            rw [← Option.some.inj hd, ← Option.some.inj hd'] at hsame
            exact h rfl rfl u v hu hv (hids.mp hsame)

/-- Distinct sources keep apart just where their files have distinct stems,
and their URLs distinct paths up to the slashes. -/
theorem pages_apart_iff (F : Type) (contentHash : String → String)
    (parseDocument : String → Html) (crawler : HelpPortalCrawler)
    (cfg : ChunkerConfig) :
    (∀ (lossy : OsStr → String) (root : FilePath) (tree : FsEntry),
      FilesApart F contentHash parseDocument lossy crawler cfg root tree
        ↔ StemsDiffer parseDocument lossy root tree)
    ∧ ∀ (parseUrl : String → Option Url) (sha256 : String → Vector UInt8 32)
      (fetches : List (Fetch parseUrl)),
      UrlsApart F contentHash parseDocument sha256 crawler cfg fetches
        ↔ PathsDiffer parseDocument fetches :=
  ⟨fun lossy root tree => filesApart_iff F contentHash parseDocument lossy
      crawler cfg root tree,
    fun _ sha256 fetches => urlsApart_iff F contentHash parseDocument sha256
      crawler cfg fetches⟩

-- ============================================================ one stem

/-- A page whose every element reads `t`. -/
def plainPage : String → Html :=
  fun _ => ⟨fun _ => some [⟨["t"], fun _ => none⟩]⟩

/-- The file `x.html`, in the directories `a` and `b`. -/
def twoDirs : FsEntry :=
  .dir [([97], .dir [([120, 46, 104, 116, 109, 108], .file (.ok ""))]),
    ([98], .dir [([120, 46, 104, 116, 109, 108], .file (.ok ""))])]

/-- Two files of one name in two directories have one id. -/
theorem same_stem_collides :
    ¬ ∀ (F : Type) (contentHash : String → String)
      (parseDocument : String → Html) (crawler : HelpPortalCrawler)
      (cfg : ChunkerConfig),
      (∀ (lossy : OsStr → String) (root : FilePath) (tree : FsEntry),
        FilesApart F contentHash parseDocument lossy crawler cfg root tree)
      ∧ ∀ (parseUrl : String → Option Url) (sha256 : String → Vector UInt8 32)
        (fetches : List (Fetch parseUrl)),
        UrlsApart F contentHash parseDocument sha256 crawler cfg fetches := by
  intro h
  obtain ⟨hfiles, -⟩ := h Unit id plainPage .new .default
  have hstems := (filesApart_iff Unit id plainPage (fun _ => "") .new .default
    ⟨"d", none⟩ twoDirs).mp (hfiles _ _ _)
  have hdistinct : twoDirs.DistinctPaths := by
    simp [twoDirs, FsEntry.DistinctPaths, AllDistinctPaths]
  have hlist : twoDirs.Listable := by
    simp [twoDirs, FsEntry.Listable, AllListable]
  have hread : readPage plainPage (.ok "")
      = .ok ⟨"t", ["t"], "t", none⟩ := by rfl
  have hext : extension [120, 46, 104, 116, 109, 108] = some htmlExtension := by
    decide
  have hnodup := hstems hdistinct hlist
  simp [twoDirs, pagesOf, pagesIn, FilePath.join, hext, hread,
    FilePath.idStem] at hnodup

end SapAutomate.Ingest
