/-
One response for each request: what `run_stdio` has written when nothing
can happen any more, on any input.

Every request it takes has its task, and a task sends one response, under
the request's id (`served_left`); what all tasks have sent is, in some
order, what each has (`Pool.perm_history`). So the responses written
answer the requests taken. The reader decides which these are: it leaves
at the first line that is no message and not blank, and with it go the
requests after that line.
-/
import SapAutomate.Proofs.Framing
import SapAutomate.Proofs.ServerSettles
import SapAutomate.Proofs.Shutdown

namespace Interact

variable {μ ρ α C : Type} {J : Iface}

-- ==================================================== task by task

/-- One index has something more. -/
theorem flatMap_range_single {β : Type} {n j : Nat} (hj : j < n)
    (c : List β) :
    (List.range n).flatMap (fun i => if j = i then c else []) = c := by
  induction n with
  | zero => omega
  | succ n ih =>
      rw [List.range_succ, List.flatMap_append]
      by_cases h : j = n
      · have hnone : (List.range n).flatMap
            (fun i => if j = i then c else []) = [] := by
          rw [List.flatMap_eq_nil_iff]
          intro i hi
          have := List.mem_range.mp hi
          rw [if_neg (by omega)]
        rw [hnone]
        simp [h]
      · rw [ih (by omega)]
        simp [h]

/-- What the tasks have done, task by task, is what has been done. -/
theorem Pool.perm_history {β : Type}
    (p : Pool (AtDesk μ ρ J) C (Answers J) (Desk μ ρ) α)
    (f : Exchange (AtDesk μ ρ J) → Option β)
    (hknown : ∀ x ∈ p.trace, x.task < p.tasks.length) :
    ((List.range p.tasks.length).flatMap fun i => (p.own i).filterMap f).Perm
      (p.history.filterMap f) := by
  obtain ⟨s, ts, tr⟩ := p
  induction tr using List.reverseRecOn with
  | nil =>
      have hnone : ∀ n, (List.range n).flatMap (fun _ => ([] : List β)) = [] := by
        simp
      exact List.Perm.of_eq (hnone ts.length)
  | append_singleton tr x ih =>
      have hx : x.task < ts.length := hknown x (by simp)
      have hrest := ih fun y hy => hknown y (by simp [hy])
      have hsplit : ∀ i, ((⟨s, ts, tr ++ [x]⟩ : Pool (AtDesk μ ρ J) C
          (Answers J) (Desk μ ρ) α).own i).filterMap f
          = ((⟨s, ts, tr⟩ : Pool (AtDesk μ ρ J) C (Answers J) (Desk μ ρ)
            α).own i).filterMap f
            ++ if x.task = i then [x.exchange].filterMap f else [] := by
        intro i
        rw [own_snoc ⟨s, ts, tr⟩, List.filterMap_append]
        by_cases hi : x.task = i
        · simp [hi]
        · simp [hi]
      have hhist : (⟨s, ts, tr ++ [x]⟩ : Pool (AtDesk μ ρ J) C (Answers J)
          (Desk μ ρ) α).history.filterMap f
          = (⟨s, ts, tr⟩ : Pool (AtDesk μ ρ J) C (Answers J) (Desk μ ρ)
            α).history.filterMap f ++ [x.exchange].filterMap f := by
        rw [history, List.map_append, List.filterMap_append]
        rfl
      rw [hhist, List.flatMap_congr fun i _ => hsplit i]
      refine (List.flatMap_append_perm _ _ _).symm.trans ?_
      rw [flatMap_range_single hx]
      exact hrest.append_right _

end Interact

namespace SapAutomate.Mcp

open Json Text

-- ============================================================ the lines

variable {parse : ParseJson}

/-- The message of a line, if it is one. -/
def Line.message (parse : ParseJson) : Line → Option Message
  | .unreadable => none
  | .text s =>
      let trimmed := trimBy isWhitespace s
      if trimmed.isEmpty then none else Message.fromJson parse trimmed

def Line.isBlank : Line → Bool
  | .unreadable => false
  | .text s => (trimBy isWhitespace s).isEmpty

/-- A line that is neither blank nor a message. -/
def Line.isBroken (parse : ParseJson) (l : Line) : Bool :=
  !l.isBlank && (l.message parse).isNone

/-- The lines that are requests. -/
def requestsOf (parse : ParseJson) (ls : List Line) : List Request :=
  (ls.filterMap (Line.message parse)).filterMap Message.asRequest

/-- No request comes after a line that is broken. -/
def BrokenLast (parse : ParseJson) (ls : List Line) : Prop :=
  ∀ pre l post, ls = pre ++ l :: post → l.isBroken parse = true →
    requestsOf parse post = []

/-- The lines before the first broken one, and the rest. -/
def readable (parse : ParseJson) (ls : List Line) : List Line :=
  ls.takeWhile fun l => !l.isBroken parse

def unread (parse : ParseJson) (ls : List Line) : List Line :=
  ls.dropWhile fun l => !l.isBroken parse

theorem requestsOf_append (ls ls' : List Line) :
    requestsOf parse (ls ++ ls') = requestsOf parse ls ++ requestsOf parse ls' := by
  unfold requestsOf
  rw [List.filterMap_append, List.filterMap_append]

theorem requestsOf_readable (parse : ParseJson) (ls : List Line) :
    requestsOf parse ls
      = requestsOf parse (readable parse ls)
        ++ requestsOf parse (unread parse ls) := by
  rw [← requestsOf_append, readable, unread, List.takeWhile_append_dropWhile]

/-- Only the first broken line matters. -/
theorem brokenLast_iff (ls : List Line) :
    BrokenLast parse ls ↔ requestsOf parse (unread parse ls) = [] := by
  have hnot : ∀ {l : Line}, l.isBroken parse = true →
      l.message parse = none := by
    intro l hl
    unfold Line.isBroken at hl
    rw [Bool.and_eq_true] at hl
    exact Option.isNone_iff_eq_none.mp hl.2
  constructor
  · intro h
    cases hrest : unread parse ls with
    | nil => rfl
    | cons l post =>
        have hl : l.isBroken parse = true := by
          have hhead := List.head?_dropWhile_not
            (fun l : Line => !l.isBroken parse) ls
          unfold unread at hrest
          rw [hrest] at hhead
          simpa using hhead
        have hsplit : ls = readable parse ls ++ l :: post := by
          rw [← hrest, readable, unread, List.takeWhile_append_dropWhile]
        have hpost := h _ l post hsplit hl
        unfold requestsOf at hpost ⊢
        rw [List.filterMap_cons_none (hnot hl)]
        exact hpost
  · intro h pre l post hls hl
    have htail : ∃ pre', unread parse ls = pre' ++ l :: post := by
      rw [hls]
      clear hls h
      unfold unread
      induction pre with
      | nil => exact ⟨[], by simp [hl]⟩
      | cons x pre ih =>
          by_cases hx : x.isBroken parse = true
          · exact ⟨x :: pre, by simp [hx]⟩
          · obtain ⟨pre', hpre'⟩ := ih
            refine ⟨pre', ?_⟩
            rw [List.cons_append, List.dropWhile_cons_of_pos (by simp [hx])]
            exact hpre'
    obtain ⟨pre', hpre'⟩ := htail
    rw [hpre', requestsOf_append] at h
    have hcons := (List.append_eq_nil_iff.mp h).2
    unfold requestsOf at hcons ⊢
    rw [List.filterMap_cons_none (hnot hl)] at hcons
    exact hcons

/-- The messages the reader gets. -/
def readMessages (parse : ParseJson) (ls : List Line) : List Message :=
  (readable parse ls).filterMap (Line.message parse)

/-- What one `recv` leaves of them. -/
theorem readMessages_recv (parse : ParseJson) (ls : List Line) :
    match (StdioReader.recv parse ls).1 with
    | .message m => readMessages parse ls
        = m :: readMessages parse (StdioReader.recv parse ls).2
    | _ => readMessages parse ls = [] := by
  induction ls with
  | nil => rfl
  | cons l ls ih =>
      cases l with
      | unreadable => rfl
      | text s =>
          unfold StdioReader.recv
          by_cases hblank : (trimBy isWhitespace s).isEmpty = true
          · have hmsg : (Line.text s).message parse = none := by
              simp only [Line.message, hblank, if_true]
            have hbroken : (Line.text s).isBroken parse = false := by
              simp only [Line.isBroken, Line.isBlank, hblank, Bool.not_true,
                Bool.false_and]
            have hskip : readMessages parse (.text s :: ls)
                = readMessages parse ls := by
              unfold readMessages readable
              rw [List.takeWhile_cons_of_pos (by simp [hbroken]),
                List.filterMap_cons_none hmsg]
            rw [hskip]
            simp only [hblank, if_true]
            exact ih
          · have hmsg : (Line.text s).message parse
                = Message.fromJson parse (trimBy isWhitespace s) := by
              simp only [Line.message, hblank]
              rfl
            simp only [hblank]
            cases hm : Message.fromJson parse (trimBy isWhitespace s) with
            | none =>
                have hbroken : (Line.text s).isBroken parse = true := by
                  rw [hm] at hmsg
                  simp [Line.isBroken, Line.isBlank, hblank, hmsg]
                show readMessages parse (.text s :: ls) = []
                unfold readMessages readable
                rw [List.takeWhile_cons_of_neg (by simp [hbroken])]
                rfl
            | some m =>
                have hbroken : (Line.text s).isBroken parse = false := by
                  rw [hm] at hmsg
                  simp [Line.isBroken, hmsg]
                show readMessages parse (.text s :: ls)
                  = m :: readMessages parse ls
                unfold readMessages readable
                rw [List.takeWhile_cons_of_pos (by simp [hbroken]),
                  List.filterMap_cons_some (hmsg.trans hm)]

end SapAutomate.Mcp

namespace SapAutomate.Mcp.Stdio

open Interact Json

variable {O : Iface} {srv : Server (HandlerIface O)} {parse : ParseJson}
  {lines : List Line}

-- ========================================================= what is read

/-- What the loop of `run_stdio` leaves alone. -/
theorem goOn_frame {s s' : State O} (h : s.goOn srv = some s') :
    s'.reader = s.reader ∧ s'.incoming = s.incoming
      ∧ s'.pool.trace = s.pool.trace ∧ s'.desk.outbox = s.desk.outbox := by
  rcases goOn_cases h with ⟨m, -, -, rfl⟩ | ⟨-, -, -, rfl⟩ | ⟨x, -, rfl⟩
    | ⟨-, -, rfl⟩ | ⟨-, -, rfl⟩
  · cases m with
    | request req => exact ⟨rfl, rfl, rfl, rfl⟩
    | notification n => exact ⟨rfl, rfl, rfl, rfl⟩
    | response r =>
        obtain ⟨jsonrpc, id, result, error⟩ := r
        cases id <;> exact ⟨rfl, rfl, rfl, rfl⟩
  · exact ⟨rfl, rfl, rfl, rfl⟩
  · exact ⟨rfl, rfl, rfl, x.step_outbox s.desk⟩
  · exact ⟨rfl, rfl, rfl, rfl⟩
  · exact ⟨rfl, rfl, rfl, rfl⟩

/-- What the writer leaves alone; it may close the channel. -/
theorem drain_frame {s s' : State O} (h : s.drain = some s') :
    s'.reader = s.reader ∧ s'.incoming = s.incoming
      ∧ s'.pool.trace = s.pool.trace
      ∧ (s'.desk.outbox.alive = true → s.desk.outbox.alive = true) := by
  rcases drain_cases h with ⟨m, -, -, rfl⟩ | ⟨-, -, -, rfl⟩ | ⟨-, rfl⟩
  · exact ⟨rfl, rfl, rfl, id⟩
  · exact ⟨rfl, rfl, rfl, id⟩
  · exact ⟨rfl, rfl, rfl, fun hc => nomatch hc⟩

theorem write_frame {s s' : State O} {ok : Bool} (h : s.write ok = some s') :
    s'.reader = s.reader ∧ s'.incoming = s.incoming
      ∧ s'.pool.trace = s.pool.trace ∧ s'.desk = s.desk := by
  obtain ⟨m, -, ⟨-, rfl⟩ | ⟨-, rfl⟩⟩ := write_cases h
  · exact ⟨rfl, rfl, rfl, rfl⟩
  · exact ⟨rfl, rfl, rfl, rfl⟩

/-- What has been read, and what there is to read, are the messages of the
input. -/
structure Reading (parse : ParseJson) (lines : List Line) (s : LineState O) :
    Prop where
  ended : s.core.reader = .ended → s.core.incoming = readMessages parse lines
  going : s.core.reader ≠ .ended →
    s.core.incoming ++ readMessages parse s.input = readMessages parse lines

theorem Reading.frame {s s' : LineState O} (h : Reading parse lines s)
    (hreader : s'.core.reader = s.core.reader)
    (hincoming : s'.core.incoming = s.core.incoming)
    (hinput : s'.input = s.input) : Reading parse lines s' := by
  constructor
  · rw [hreader, hincoming]
    exact h.ended
  · rw [hreader, hincoming, hinput]
    exact h.going

theorem Reading.recv {s s' : LineState O} (h : Reading parse lines s)
    (hstep : (stdioMachine parse srv lines).step .recv s = some s') :
    Reading parse lines s' := by
  obtain ⟨hcore, hinput⟩ := core_step hstep
  obtain ⟨hreader, hs'⟩ := recv_cases hcore
  have hgoing := h.going (by rw [hreader]; nofun)
  have hread := readMessages_recv parse s.input
  cases hx : (StdioReader.recv parse s.input).1 with
  | message m =>
      rw [hx] at hs' hread
      constructor
      · intro hend
        rw [hs'] at hend
        cases hend
      · intro _
        have hmore : readMessages parse s.input
            = m :: readMessages parse s'.input := by
          rw [hinput]
          exact hread
        rw [hs', ← hgoing, hmore]
        exact List.append_assoc s.core.incoming [m] _
  | eof =>
      rw [hx] at hs' hread
      have hnone : readMessages parse s.input = [] := hread
      constructor
      · intro _
        rw [hs', ← hgoing, hnone, List.append_nil]
        rfl
      · intro hne
        rw [hs'] at hne
        exact absurd rfl hne
  | error =>
      rw [hx] at hs' hread
      have hnone : readMessages parse s.input = [] := hread
      constructor
      · intro _
        rw [hs', ← hgoing, hnone, List.append_nil]
        rfl
      · intro hne
        rw [hs'] at hne
        exact absurd rfl hne

theorem Reading.reachable {s : LineState O}
    (h : (stdioMachine parse srv lines).Reachable s) :
    Reading parse lines s := by
  have hboth : Sound srv s.core ∧ Reading parse lines s := by
    have hstart : Reading parse lines (⟨.init, lines⟩ : LineState O) :=
      ⟨(fun hend => nomatch hend), fun _ => rfl⟩
    refine h.invariant (I := fun s => Sound srv s.core ∧ Reading parse lines s)
      ⟨sound_init, hstart⟩ ?_
    intro a s s' hs hstep
    obtain ⟨hcore, hinput⟩ := core_step hstep
    refine ⟨hs.1.step hcore, ?_⟩
    cases a with
    | recv => exact hs.2.recv hstep
    | resume i w =>
        obtain ⟨p, -, hp⟩ := Option.map_eq_some_iff.mp hcore
        exact hs.2.frame (by rw [← hp]) (by rw [← hp]) hinput
    | forward =>
        obtain ⟨m, hreader, ⟨-, hp⟩ | ⟨hdead, -⟩⟩ := forward_cases hcore
        · have hgoing := hs.2.going (by rw [hreader]; nofun)
          constructor
          · intro hend
            rw [hp] at hend
            cases hend
          · intro _
            rw [hp, hinput]
            exact hgoing
        · rw [hs.1.inbound] at hdead
          cases hdead
    | main =>
        have hf := goOn_frame hcore
        exact hs.2.frame hf.1 hf.2.1 hinput
    | drain =>
        have hf := drain_frame hcore
        exact hs.2.frame hf.1 hf.2.1 hinput
    | write ok =>
        have hf := write_frame hcore
        exact hs.2.frame hf.1 hf.2.1 hinput
  exact hboth.2

-- ========================================================= what is sent

/-- While the receiver is there, no send is refused. -/
def Unrefused (s : State O) : Prop :=
  s.desk.outbox.alive = true → ∀ m, sent m false ∉ s.pool.history

theorem Unrefused.frame {s s' : State O} (h : Unrefused s)
    (htrace : s'.pool.trace = s.pool.trace)
    (halive : s'.desk.outbox.alive = true → s.desk.outbox.alive = true) :
    Unrefused s' := by
  intro ha m hm
  unfold Pool.history at hm
  rw [htrace] at hm
  exact h (halive ha) m hm

theorem Unrefused.step {a : Act O} {s s' : State O} (h : Unrefused s)
    (hsound : Sound srv s) (hstep : (machine srv).step a s = some s') :
    Unrefused s' := by
  cases a with
  | resume i w =>
      obtain ⟨p, hres, rfl⟩ := Option.map_eq_some_iff.mp hstep
      obtain ⟨-, hasked⟩ :=
        Recorded.resume hsound.tracked served_orderly hsound.recorded hres
      obtain ⟨t, q, k, r, d, ht, hprog, ha, rfl⟩ := Pool.resume_eq_some.mp hres
      intro halive m hm
      have hbefore : s.desk.outbox.alive = true := hasked.alive ▸ halive
      unfold Pool.history at hm
      rw [List.map_append] at hm
      rcases List.mem_append.mp hm with hm | hm
      · exact h hbefore m hm
      · -- a new one: it was accepted
        have hx := List.mem_singleton.mp hm
        cases hx
        obtain ⟨⟨ok, c⟩, hc, hcd⟩ := Option.map_eq_some_iff.mp ha
        rcases Channel.send_eq_some hc with ⟨rfl, -, rfl⟩ | ⟨-, hdead, rfl⟩
        · cases hcd
        · rw [hdead] at hbefore
          cases hbefore
  | recv x =>
      obtain ⟨-, rfl⟩ := recv_cases hstep
      cases x <;> exact h
  | forward =>
      obtain ⟨m, -, ⟨-, rfl⟩ | ⟨-, rfl⟩⟩ := forward_cases hstep
      · exact h
      · exact h
  | main =>
      have hf := goOn_frame hstep
      exact h.frame hf.2.2.1 fun ha => hf.2.2.2 ▸ ha
  | drain =>
      have hf := drain_frame hstep
      exact h.frame hf.2.2.1 hf.2.2.2
  | write ok =>
      have hf := write_frame hstep
      exact h.frame hf.2.2.1 fun ha => hf.2.2.2 ▸ ha

theorem Unrefused.reachable {s : State O} (h : (machine srv).Reachable s) :
    Unrefused s := by
  have hboth : Sound srv s ∧ Unrefused s := by
    refine h.invariant (I := fun s => Sound srv s ∧ Unrefused s) ?_ ?_
    · exact ⟨sound_init, fun _ _ hm => nomatch hm⟩
    · intro a s s' hs hstep
      exact ⟨hs.1.step hstep, hs.2.step hs.1 hstep⟩
  exact hboth.2

/-- The response of an exchange that was accepted. -/
def acceptedResponse (x : Exchange (ServerIface O)) : Option Response :=
  (acceptedMsg x).bind Message.asResponse

/-- A task that is over has sent its response and no other. -/
theorem done_response {req : Request} {tr : List (Exchange (ServerIface O))}
    {u : Unit} (h : (served srv true req).Left tr (.done u))
    (hsent : ∀ m, sent m false ∉ tr) :
    ∃ r, tr.filterMap acceptedResponse = [r] ∧ r.id = req.id := by
  rcases served_left h with ⟨xs, tr₁, tr₂, q, k, q', k', k'', -, -, -, -, hk⟩
    | ⟨xs, tr₁, r, hxs, hun, ⟨-, k, hk⟩ | ⟨ok, htr, -⟩⟩
  · cases hk
  · cases hk
  · refine ⟨r, ?_, dispatch_id hxs⟩
    have hnone : tr₁.filterMap acceptedResponse = [] := by
      rw [List.filterMap_eq_nil_iff]
      intro x hx
      unfold acceptedResponse
      cases hm : acceptedMsg x with
      | none => rfl
      | some m =>
          have hxm := acceptedMsg_eq_some.mp hm
          obtain ⟨id, p, hreq⟩ := unfolds_sent hun m
            (List.mem_filterMap.mpr ⟨x, hx, by rw [hxm]; rfl⟩)
          rw [hreq]
          rfl
    rw [htr] at hsent ⊢
    rw [List.filterMap_append, hnone]
    cases ok with
    | true => rfl
    | false => exact absurd (by simp) (hsent (.response r))

-- ==================================================== a response for each

/-- The responses written answer the requests, one each, in some order. -/
def OneResponse (requests : List Request) (written : List Message) : Prop :=
  ∃ responses : List Response,
    List.Forall₂ (fun req r => r.id = req.id) requests responses
      ∧ responses.Perm (written.filterMap Message.asResponse)

theorem OneResponse.length {requests : List Request} {written : List Message}
    (h : OneResponse requests written) :
    (written.filterMap Message.asResponse).length = requests.length := by
  obtain ⟨responses, hpair, hperm⟩ := h
  rw [← hperm.length_eq, hpair.length_eq]

/-- A run to its end: nothing can happen any more, the handlers have
returned, and no write has failed. -/
structure Complete (parse : ParseJson) (srv : Server (HandlerIface O))
    (lines : List Line) (as : List (LineAct O)) (s : LineState O) : Prop where
  runs : (stdioMachine parse srv lines).Runs as s
  stuck : (stdioMachine parse srv lines).Stuck s
  returned : ∀ t ∈ s.core.pool.tasks, ∃ u, t.prog = .done u
  written : .write false ∉ as

/-- All that was taken has been answered. -/
theorem Complete.taken {as : List (LineAct O)} {s : LineState O}
    (h : Complete parse srv lines as s) :
    OneResponse s.core.pool.calls s.core.written := by
  have hreach : (stdioMachine parse srv lines).Reachable s := ⟨as, h.runs⟩
  have hsound : Sound srv s.core := .onInput hreach
  have hidle : s.core.writer = .idle ∧ s.core.desk.outbox.queued = [] := by
    rcases writer_waits (core_stuck h.stuck .drain)
      (core_stuck h.stuck (.write true)) with hidle | hended
    · exact hidle
    · have := (past_iff h.runs).mp (by rw [hended]; rfl)
      exact absurd this h.written
  have halive : s.core.desk.outbox.alive = true :=
    hsound.outbound (by rw [hidle.1]; nofun)
  -- all that was accepted has been written
  have hwritten : s.core.written = s.core.pool.history.filterMap acceptedMsg := by
    have hall := hsound.writing (by rw [hidle.1]; rfl)
    rw [hidle.1] at hall
    rw [← hsound.recorded.accepted]
    have hdrop : s.core.desk.outbox.accepted.drop
        s.core.desk.outbox.received = [] := hidle.2
    have htake := List.take_append_drop s.core.desk.outbox.received
      s.core.desk.outbox.accepted
    rw [hdrop, List.append_nil] at htake
    exact (List.append_nil _).symm.trans (hall.trans htake)
  have hone : ∀ i, i < s.core.pool.tasks.length → ∃ r : Response,
      (s.core.pool.own i).filterMap acceptedResponse = [r]
        ∧ ∀ t, s.core.pool.tasks[i]? = some t → r.id = t.call.id := by
    intro i hi
    have ht := List.getElem?_eq_getElem hi
    obtain ⟨u, hu⟩ := h.returned _ (List.getElem_mem hi)
    have hleft := hsound.tracked.left i _ ht
    rw [hu] at hleft
    obtain ⟨r, hr, hid⟩ := done_response hleft fun m hm =>
      Unrefused.reachable (core_reachable hreach) halive m
        ((Pool.own_sublist_history i).subset hm)
    refine ⟨r, hr, ?_⟩
    intro t ht'
    rw [ht] at ht'
    cases ht'
    exact hid
  have : Nonempty Response := ⟨.success .null .null⟩
  choose! g hg using hone
  refine ⟨(List.range s.core.pool.tasks.length).map g, ?_, ?_⟩
  · rw [List.forall₂_iff_get]
    refine ⟨by simp [Pool.calls], ?_⟩
    intro i hi hj
    have hi' : i < s.core.pool.tasks.length := by
      simpa [Pool.calls] using hi
    have hid := (hg i hi').2 _ (List.getElem?_eq_getElem hi')
    simpa [Pool.calls] using hid
  · have hperm := Pool.perm_history s.core.pool acceptedResponse
      hsound.tracked.known
    have hmap : (List.range s.core.pool.tasks.length).flatMap
        (fun i => (s.core.pool.own i).filterMap acceptedResponse)
        = (List.range s.core.pool.tasks.length).map g := by
      rw [List.map_eq_flatMap]
      apply List.flatMap_congr
      intro i hi
      exact (hg i (List.mem_range.mp hi)).1
    rw [hmap] at hperm
    rw [hwritten, List.filterMap_filterMap]
    exact hperm

/-- And what was taken are the requests before the first broken line. -/
theorem Complete.calls {as : List (LineAct O)} {s : LineState O}
    (h : Complete parse srv lines as s) :
    s.core.pool.calls = requestsOf parse (readable parse lines) := by
  have hreach : (stdioMachine parse srv lines).Reachable s := ⟨as, h.runs⟩
  have hsound : Sound srv s.core := .onInput hreach
  have hpast : s.core.main.past = true := by
    rcases hsound.stuck_cases h.stuck with ⟨hmain, -⟩ | ⟨hmain, -⟩
    · rw [hmain]
      rfl
    · rw [hmain]
      rfl
  have hended := hsound.looping hpast
  have htaken : s.core.taken = s.core.inbound.accepted := by
    have hdrop : s.core.inbound.accepted.drop s.core.inbound.received = [] :=
      hsound.emptied hpast
    have htake := List.take_append_drop s.core.inbound.received
      s.core.inbound.accepted
    rw [hdrop, List.append_nil] at htake
    exact htake
  have hincoming := hsound.incoming
  rw [hended] at hincoming
  rw [hsound.requests, htaken, requestsOf, ← readMessages,
    ← (Reading.reachable hreach).ended hended, hincoming]
  exact congrArg _ (List.append_nil _).symm

/-- Every run comes to an end, and where it has, each request has had its
response just where none comes after a broken line. -/
theorem one_response_iff (parse : ParseJson) (srv : Server (HandlerIface O))
    (lines : List Line) :
    (stdioMachine parse srv lines).Settles
      ∧ ∀ (as : List (LineAct O)) (s : LineState O),
        Complete parse srv lines as s →
        (OneResponse (requestsOf parse lines) s.core.written
          ↔ BrokenLast parse lines) := by
  refine ⟨settles parse srv lines, ?_⟩
  intro as s h
  have htaken := h.taken
  rw [h.calls] at htaken
  have hsplit := requestsOf_readable parse lines
  rw [brokenLast_iff]
  constructor
  · intro hone
    have hlen := hone.length
    rw [htaken.length, hsplit, List.length_append] at hlen
    apply List.eq_nil_of_length_eq_zero
    omega
  · intro hnone
    rw [hsplit, hnone, List.append_nil]
    exact htaken

-- ================================================================= runs

/-- A parser, as far as one request goes. -/
def parsePing : ParseJson := fun _ => some ping.toValue

theorem ping_message : (Line.text ping.line).message parsePing = some ping := by
  have hne : ping.text.toList ≠ [] := by simp [Message.text, Value.toJson]
  have hvalue : Message.fromValue ping.toValue = some ping :=
    Message.fromValue_toValue (m := ping) (by simp [ping, Message.Fits, Id.Fits])
  simp [Line.message, trimBy_line, hne, Message.fromJson, parsePing, hvalue]

/-- A request, after a line that cannot be read. -/
def brokenInput : List Line := [.unreadable, .text ping.line]

/-- The reader leaves at that line, and the loop ends. -/
def brokenRun : List (LineAct NoIface) := [.recv, .main, .main]

theorem brokenRun_complete : ∃ s,
    Complete parsePing bareServer brokenInput brokenRun s
      ∧ s.core.written = [] := by
  refine ⟨_, ⟨rfl, ?_, fun t ht => (nomatch ht), ?_⟩, rfl⟩
  · intro a
    cases a <;> rfl
  · simp [brokenRun]

/-- That request gets no response. -/
theorem request_unanswered :
    ¬ ∀ (as : List (LineAct NoIface)) (s : LineState NoIface),
      Complete parsePing bareServer brokenInput as s →
        OneResponse (requestsOf parsePing brokenInput) s.core.written := by
  intro h
  obtain ⟨s, hcomplete, hwritten⟩ := brokenRun_complete
  have hlen := (h brokenRun s hcomplete).length
  rw [hwritten] at hlen
  have hone : requestsOf parsePing brokenInput
      = [⟨"2.0", .number 2, "ping", none⟩] := by
    have hbad : Line.unreadable.message parsePing = none := rfl
    rw [requestsOf, brokenInput, List.filterMap_cons_none hbad,
      List.filterMap_cons_some ping_message]
    rfl
  rw [hone] at hlen
  cases hlen

/-- A request alone. -/
def pingRun : List (LineAct NoIface) :=
  [.recv, .forward, .main, .resume 0 (fun q => nomatch q), .drain, .write true,
    .recv, .main, .main]

theorem pingRun_complete : ∃ s,
    Complete parsePing bareServer [.text ping.line] pingRun s := by
  refine ⟨_, rfl, ?_, ?_, ?_⟩
  · intro a
    cases a with
    | resume i w => cases i <;> rfl
    | _ => rfl
  · intro t ht
    obtain rfl := List.mem_singleton.mp ht
    exact ⟨(), rfl⟩
  · simp [pingRun]

theorem one_response_ping : ∃ s,
    Complete parsePing bareServer [.text ping.line] pingRun s
      ∧ (OneResponse (requestsOf parsePing [.text ping.line]) s.core.written
        ↔ BrokenLast parsePing [.text ping.line]) := by
  obtain ⟨s, h⟩ := pingRun_complete
  exact ⟨s, h, (one_response_iff parsePing bareServer [.text ping.line]).2
    pingRun s h⟩

end SapAutomate.Mcp.Stdio
