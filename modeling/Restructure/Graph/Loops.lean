import Restructure.Graph.Dominators

namespace Restructure

/-!
# Natural loops — the cycles that a single node dominates

An edge from a node to one of its dominators closes a loop; all such edges into one node, the
header, close the same loop.

* `Loop` — the header, the body, the latches from which control returns, and the edges out.
* `LoopForm` — where the loop is left, which decides how source code would write it.
* `sortByKey` — sorting by a number.
* `LoopDraft` — a loop that is being found: every edge back into its header adds a latch, and the
  nodes that lead to it to the body.
* `Links.loops` — the loops of a graph, by ascending header.
* `loopAt?` — the loop with a given header, by bisection.
-/

/-- Where a loop tests whether to go on: in its header, in its only latch, nowhere, or in
    several places. -/
inductive LoopForm where
  | preTested | postTested | infinite | complex
  deriving DecidableEq

/-- The form's name in answers. -/
def LoopForm.name : LoopForm → String
  | preTested => "PreTested"
  | postTested => "PostTested"
  | infinite => "Infinite"
  | complex => "Complex"

/-- A natural loop. Body and latches are ascending, and the exits are edges from the body to the
    outside, by ascending source. -/
structure Loop where
  header : Nat
  body : List Nat
  latches : List Nat
  preheader : Option Nat
  exits : List (Nat × Nat)

namespace Loop

/-- The node belongs to the loop. -/
def contains (l : Loop) (n : Nat) : Bool := l.body.contains n

/-- The number of nodes in the loop. -/
def size (l : Loop) : Nat := l.body.length

/-- The latch, if there is only one. -/
def singleLatch (l : Loop) : Option Nat :=
  match l.latches with
  | [n] => some n
  | _ => none

/-- Puts `n` at its place in an ascending list without repetitions. -/
def insertAscending (n : Nat) : List Nat → List Nat
  | [] => [n]
  | m :: ms => if n < m then n :: m :: ms else if n = m then m :: ms else m :: insertAscending n ms

/-- The nodes outside that the exits lead to, ascending. -/
def exitTargets (l : Loop) : List Nat :=
  l.exits.foldl (fun ns e => insertAscending e.2 ns) []

/-- All exits leave from the node. -/
def leavesOnlyFrom (l : Loop) (n : Nat) : Bool := l.exits.all (·.1 == n)

/-- Where the loop is left. A loop of one node that tests at its end counts as tested there. -/
def form (l : Loop) : LoopForm :=
  if l.exits.isEmpty then .infinite
  else if l.singleLatch.any l.leavesOnlyFrom then .postTested
  else if l.leavesOnlyFrom l.header then .preTested
  else .complex

end Loop

/-! ### Sorting -/

/-- Puts an element in front of the first one whose key is not smaller. -/
def insertByKey {α : Type} (key : α → Nat) (a : α) : List α → List α
  | [] => [a]
  | b :: bs => if key a ≤ key b then a :: b :: bs else b :: insertByKey key a bs

/-- Sorts by ascending keys and leaves elements with one key in their order. -/
def sortByKey {α : Type} (key : α → Nat) (as : List α) : List α := as.foldr (insertByKey key) []

/-! ### Finding loops -/

/-- What is known of a loop while the edges of a graph are gone through: the nodes taken into its
    body, the latest first, and its latches in the order in which they were found. -/
structure LoopDraft where
  header : Nat
  body : List Nat
  latches : List Nat

namespace LoopDraft

/-- A loop of which nothing but the header is known. -/
def ofHeader (header : Nat) : LoopDraft := ⟨header, [header], []⟩

/-- Takes nodes from `work` until one is new to the body. That one is taken in, its predecessors
    are put in front of the work, the last of them first, and `onward` goes on. -/
def growStep (header : Nat) (pred : Nat → List Nat) (onward : List Nat → List Nat → List Nat) :
    (work body : List Nat) → List Nat
  | [], body => body
  | n :: work, body =>
    if n ≠ header ∧ n ∉ body then onward ((pred n).reverse ++ work) (n :: body)
    else growStep header pred onward work body

/-- The body with the nodes of `work` and all nodes that lead to them without passing the header,
    of which at most `room` are new. -/
def growFrom (header : Nat) (pred : Nat → List Nat) : (room : Nat) → (work body : List Nat) →
    List Nat
  | 0 => growStep header pred fun _ body => body
  | room + 1 => growStep header pred (growFrom header pred room)

/-- Takes in an edge back from a latch. What earlier latches have brought into the body is not
    followed again, and no more nodes can be new than the graph has. -/
def takeIn (l : Links) (latch : Nat) (d : LoopDraft) : LoopDraft where
  header := d.header
  body := growFrom d.header l.pred l.size [latch] d.body
  latches := if d.latches.contains latch then d.latches else d.latches ++ [latch]

/-- Changes the draft with the given header, which is put behind the others if there is none. -/
def update (f : LoopDraft → LoopDraft) (header : Nat) : List LoopDraft → List LoopDraft
  | [] => [f (ofHeader header)]
  | d :: ds => if d.header = header then f d :: ds else d :: update f header ds

end LoopDraft

namespace Links

/-- Takes in the edges from a node that lead back, to nodes that dominate it. -/
def takeInEdges (l : Links) (t : DominatorTree) (drafts : List LoopDraft) (n : Nat) :
    List LoopDraft :=
  (l.succ n).foldl
    (fun drafts header =>
      if t.dominates header n then LoopDraft.update (.takeIn l n) header drafts else drafts)
    drafts

/-- The drafts of all loops, after the edges of the reachable nodes have been gone through. -/
def loopDrafts (l : Links) (t : DominatorTree) : List LoopDraft :=
  (List.range l.size).foldl
    (fun drafts n => if t.isReachable n then l.takeInEdges t drafts n else drafts) []

/-- The predecessor outside the body, if there is a single edge from outside. -/
def preheader (l : Links) (header : Nat) (body : List Nat) : Option Nat :=
  match (l.pred header).filter fun n => !body.contains n with
  | [n] => some n
  | _ => none

/-- The edges from the body to the outside. -/
def loopExits (l : Links) (body : List Nat) : List (Nat × Nat) :=
  body.flatMap fun n => ((l.succ n).filter fun m => !body.contains m).map fun m => (n, m)

/-- The loop of a finished draft. -/
def finishLoop (l : Links) (d : LoopDraft) : Loop :=
  let body := sortByKey id d.body
  ⟨d.header, body, sortByKey id d.latches, l.preheader d.header body, l.loopExits body⟩

/-- The loops of finished drafts, by ascending header. -/
def finishLoops (l : Links) (drafts : List LoopDraft) : List Loop :=
  sortByKey (·.header) (drafts.map l.finishLoop)

/-- The natural loops, by ascending header. -/
def loops (l : Links) (t : DominatorTree) : List Loop := l.finishLoops (l.loopDrafts t)

end Links

/-! ### Looking loops up -/

/-- The loop with the given header among those from place `low` up to place `high`, of which each
    step leaves one half. -/
def bisectLoops (loops : List Loop) (header low high : Nat) (h : high ≤ loops.length) :
    Option Loop :=
  if hlt : low < high then
    let middle := (low + high) / 2
    have hmiddle : middle < loops.length := by omega
    if header < loops[middle].header then bisectLoops loops header low middle (by omega)
    else if loops[middle].header < header then bisectLoops loops header (middle + 1) high h
    else some loops[middle]
  else none
termination_by high - low

/-- The loop with the given header, among loops with ascending headers. -/
def loopAt? (loops : List Loop) (header : Nat) : Option Loop :=
  bisectLoops loops header 0 loops.length (Nat.le_refl _)

end Restructure
