/-
What a robots.txt grants (`sap-automate-ingest/src/robots.rs`), beside what
it is to grant.

Here a body is read by the agent: the rules that stand for it, group after
group (`rulesFor`). The most specific of the agents named for a client is
asked (`Chosen`), and the longest rule decides (`Allows`). The parser makes
a group out of lines of rules only, so an agent named without one is not
there to be asked, and the next agent is (`Served`).
-/
import SapAutomate.Ingest.Robots
import SapAutomate.Proofs.ChunkWindows

namespace SapAutomate.Ingest

-- ============================================================= reference

/-- A rule of a group. -/
inductive Rule
  | allow (path : List Char)
  | disallow (path : List Char)
  | crawlDelay (ms : Nat)
  deriving DecidableEq

/-- A line that counts. -/
inductive Entry
  | userAgent (agent : List Char)
  | rule (r : Rule)
  deriving DecidableEq

variable (readDelay : List Char → Option Nat)

/-- The line that a key and a value are. No agent, a delay that cannot be
read and an unknown key count for nothing. -/
def entryOf (kv : List Char × List Char) : Option Entry :=
  if kv.1 = userAgentKey then
    if kv.2 = [] then none else some (.userAgent (toAsciiLowercase kv.2))
  else if kv.1 = allowKey then some (.rule (.allow kv.2))
  else if kv.1 = disallowKey then some (.rule (.disallow kv.2))
  else if kv.1 = crawlDelayKey then
    (readDelay kv.2).map fun ms => .rule (.crawlDelay ms)
  else none

/-- The lines of a body that count. -/
def entriesOf (body : List Char) : List Entry :=
  ((lines [] body).filterMap directive).filterMap (entryOf readDelay)

/-- The agents that are named. -/
def agentsOf (es : List Entry) : List (List Char) :=
  es.filterMap fun
    | .userAgent agent => some agent
    | .rule _ => none

/-- The rules that stand for an agent. `on`: it is one of those that the
group at hand is for; `naming`: more of them may come. -/
def rulesFor (agent : List Char) (on naming : Bool) : List Entry → List Rule
  | [] => []
  | .userAgent a :: es => rulesFor agent (a = agent || (naming && on)) true es
  | .rule r :: es => (if on then [r] else []) ++ rulesFor agent on false es

/-- The agent to be asked for a client: the longest that is named and that
the client's name begins with, and `*` where there is none. -/
def Chosen (agents : List (List Char)) (ua agent : List Char) : Prop :=
  (agent ∈ agents ∧ agent ≠ star ∧ agent <+: ua
      ∧ ∀ a ∈ agents, a ≠ star → a <+: ua → a.length ≤ agent.length)
    ∨ agent = star ∧ ∀ a ∈ agents, a ≠ star → ¬ a <+: ua

/-- No rule against a path is longer than all those for it. -/
def Allows (rules : List Rule) (path : List Char) : Prop :=
  ∀ d, .disallow d ∈ rules → d ≠ [] → d <+: path →
    ∃ a, .allow a ∈ rules ∧ a ≠ [] ∧ a <+: path ∧ d.length ≤ a.length

/-- The crawl delay that rules set. -/
def lastDelay (rules : List Rule) : Option Nat :=
  (rules.filterMap fun
    | .crawlDelay ms => some ms
    | _ => none).getLast?

/-- What is to be answered. -/
def Answers (es : List Entry) (ua path : List Char) (decision : Decision)
    (delay : Option Nat) : Prop :=
  ∃ agent, Chosen (agentsOf es) ua agent
    ∧ (decision = .allowed ↔ Allows (rulesFor agent false false es) path)
    ∧ delay = lastDelay (rulesFor agent false false es)

-- ============================================================== prefixes

theorem eq_of_length {s a b : List Char} (ha : a <+: s) (hb : b <+: s)
    (h : a.length = b.length) : a = b :=
  (List.prefix_of_prefix_length_le ha hb h.le).eq_of_length h

theorem Chosen.unique {agents : List (List Char)} {ua a b : List Char}
    (ha : Chosen agents ua a) (hb : Chosen agents ua b) : a = b := by
  rcases ha with ⟨hamem, hastar, hapre, hamax⟩ | ⟨rfl, hanone⟩
  · rcases hb with ⟨hbmem, hbstar, hbpre, hbmax⟩ | ⟨_, hbnone⟩
    · exact eq_of_length hapre hbpre (Nat.le_antisymm
        (hbmax a hamem hastar hapre) (hamax b hbmem hbstar hbpre))
    · exact absurd hapre (hbnone a hamem hastar)
  · rcases hb with ⟨hbmem, hbstar, hbpre, _⟩ | ⟨rfl, _⟩
    · exact absurd hbpre (hanone b hbmem hbstar)
    · rfl

theorem Chosen.congr {as bs : List (List Char)} {ua a : List Char}
    (h : Chosen as ua a) (heq : ∀ c, c ∈ as ↔ c ∈ bs) : Chosen bs ua a := by
  refine h.imp ?_ ?_
  · rintro ⟨hmem, hstar, hpre, hmax⟩
    exact ⟨(heq a).mp hmem, hstar, hpre, fun c hc => hmax c ((heq c).mpr hc)⟩
  · rintro ⟨hstar, hnone⟩
    exact ⟨hstar, fun c hc => hnone c ((heq c).mpr hc)⟩

-- ============================================================= decisions

/-- A group holds the rules that stand for its agent. -/
structure Stands (g : Group) (rules : List Rule) : Prop where
  allow : ∀ p, p ∈ g.allow ↔ .allow p ∈ rules ∧ p ≠ []
  disallow : ∀ p, p ∈ g.disallow ↔ .disallow p ∈ rules ∧ p ≠ []
  crawlDelay : g.crawlDelay = lastDelay rules

/-- An agent has a group exactly when rules stand for it, and then those. -/
structure Recorded (out : RobotsTxt) (agent : List Char) (rules : List Rule) :
    Prop where
  none_iff : out.lookup agent = none ↔ rules = []
  stands : ∀ g ∈ out.lookup agent, Stands g rules

variable {readDelay}

/-- No line names nobody, and below one that names an agent no line has a
delay that cannot be read. `after`: the line above is one of rules. -/
def readable (readDelay : List Char → Option Nat) :
    Bool → List (List Char × List Char) → Bool
  | _, [] => true
  | after, kv :: kvs =>
      if kv.1 = userAgentKey then
        decide (kv.2 ≠ []) && readable readDelay false kvs
      else if kv.1 = allowKey ∨ kv.1 = disallowKey then
        readable readDelay true kvs
      else if kv.1 = crawlDelayKey then
        ((readDelay kv.2).isSome || after) && readable readDelay true kvs
      else readable readDelay after kvs

/-- The parser is where reading by the agent is. -/
structure Follows (after : Bool) (p : Parser) (sofar : List Char → List Rule) :
    Prop where
  recorded : ∀ agent, Recorded p.out agent (sofar agent)
  naming : after = false → p.justSawDirective = false
  ended : after = true → p.justSawDirective = true ∨ p.currentAgents = []
  present : after = true → ∀ agent ∈ p.currentAgents, sofar agent ≠ []

/-- The rules that are still to come for an agent. -/
def Parser.ahead (p : Parser) (agent : List Char) (es : List Entry) :
    List Rule :=
  rulesFor agent (decide (agent ∈ p.currentAgents)) (!p.justSawDirective) es

/-- The agents named that have a rule. -/
def ruledOf (es : List Entry) : List (List Char) :=
  (agentsOf es).filter fun a => rulesFor a false false es ≠ []

/-- Of the agents named, the one to be asked has a rule; or else the one
that is asked in its place lets the path through, and sets no delay. -/
def Served (es : List Entry) (ua path : List Char) : Prop :=
  ∃ named ruled, Chosen (agentsOf es) ua named ∧ Chosen (ruledOf es) ua ruled
    ∧ (named = ruled ∨ Allows (rulesFor ruled false false es) path
      ∧ lastDelay (rulesFor ruled false false es) = none)

end SapAutomate.Ingest
