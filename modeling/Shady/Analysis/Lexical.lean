import Shady.Analysis.CfgWellFormed

/-!
# Lexical nesting of constructs

Every block of a structured function stands inside certain constructs, the innermost one
first. This gives the edges that a control flow graph should have, without any search: a
merge leaves the innermost construct of its kind, a join the control that binds its token.
-/

set_option autoImplicit false

namespace Shady

/-- What a construct puts around its bodies. -/
inductive Frame
  | selection (tail : AbsId)
  | loop (body tail : AbsId)
  | control (token : ValueId) (tail : AbsId)
  deriving DecidableEq, Repr

namespace Frame

def tail : Frame → AbsId
  | .selection tail => tail
  | .loop _ tail => tail
  | .control _ tail => tail

def body? : Frame → Option AbsId
  | .loop body _ => some body
  | _ => none

def isSelection : Frame → Bool
  | .selection _ => true
  | _ => false

def isLoop : Frame → Bool
  | .loop _ _ => true
  | _ => false

def binds (token : ValueId) : Frame → Bool
  | .control own _ => decide (own = token)
  | _ => false

end Frame

namespace Terminator

def jumps : Terminator → List Jump
  | .jump j => [j]
  | .branch trueJump falseJump => [trueJump, falseJump]
  | .brSwitch caseJumps defaultJump => caseJumps ++ [defaultJump]
  | _ => []

def bodies : Terminator → List AbsId
  | .ifInstr ifTrue ifFalse _ => ifTrue :: ifFalse.toList
  | .matchInstr cases defaultCase _ => cases ++ [defaultCase]
  | .loopInstr body _ => [body]
  | .control inside _ => [inside]
  | _ => []

def tail? : Terminator → Option AbsId
  | .ifInstr _ _ tail => some tail
  | .matchInstr _ _ tail => some tail
  | .loopInstr _ tail => some tail
  | .control _ tail => some tail
  | _ => none

def structuralTargets (terminator : Terminator) : List AbsId :=
  terminator.bodies ++ terminator.tail?.toList

/-- The kind of construct that a merge leaves, or goes on with. -/
def merges : Terminator → Option (Frame → Bool)
  | .mergeSelection => some Frame.isSelection
  | .mergeContinue => some Frame.isLoop
  | .mergeBreak => some Frame.isLoop
  | _ => none

/-- Where a terminator leaves a construct for, with these constructs around it. A missing
    false body counts as one that merges at once. -/
def leaves (frames : List Frame) : Terminator → List (CFEdgeType × AbsId)
  | .ifInstr _ none tail => [(.structuredLeaveBodyEdge, tail)]
  | .join token =>
      ((frames.find? (Frame.binds token)).map (.structuredLeaveBodyEdge, ·.tail)).toList
  | .mergeSelection =>
      ((frames.find? Frame.isSelection).map (.structuredLeaveBodyEdge, ·.tail)).toList
  | .mergeContinue =>
      (((frames.find? Frame.isLoop).bind Frame.body?).map (.structuredLoopContinue, ·)).toList
  | .mergeBreak =>
      ((frames.find? Frame.isLoop).map (.structuredLeaveBodyEdge, ·.tail)).toList
  | _ => []

end Terminator

namespace Function
variable (f : Function)

def terminator (a : AbsId) : Option Terminator := (f.get a).bind Abstraction.body

/-- The token that the inside of a control takes. -/
def token (inside : AbsId) : Option ValueId := (f.get inside).bind fun abs => abs.params.head?

/-- What a construct puts around its bodies. -/
def frame : Terminator → Option Frame
  | .ifInstr _ _ tail => some (.selection tail)
  | .matchInstr _ _ tail => some (.selection tail)
  | .loopInstr body tail => some (.loop body tail)
  | .control inside tail => (f.token inside).map (.control · tail)
  | _ => none

def IsBlock (b : AbsId) : Prop := ∃ abs, f.get b = some abs ∧ abs.isFunction = false

/-- The edges out of a block, with these constructs around it: one for each jump, body,
    tail, and way out. -/
def edgesIn (frames : List Frame) (a : AbsId) : List CFEdge :=
  match f.terminator a with
  | none => []
  | some t =>
      t.jumps.map (fun j => ⟨.jumpEdge, some a, some j.target, some j, some (.jump j)⟩)
        ++ t.tail?.toList.map (⟨.structuredTailEdge, some a, some ·, none, some t⟩)
        ++ t.bodies.map (⟨.structuredEnterBodyEdge, some a, some ·, none, some t⟩)
        ++ (t.leaves frames).map fun leave => ⟨leave.1, some a, some leave.2, none, some t⟩

/-- The constructs are nested lexically: every block stands in one place, and is written
    once, as a body or a tail, or is jumped to from where it stands. -/
structure Nested (scope : AbsId → List Frame) : Prop where
  self : ∃ abs, f.get f.self = some abs
  start : scope f.self = []
  jumps : ∀ a t, f.terminator a = some t → ∀ j ∈ t.jumps, f.IsBlock j.target ∧ scope j.target = scope a
  bodies : ∀ a t, f.terminator a = some t → ∀ b ∈ t.bodies,
    f.IsBlock b ∧ ∃ frame, f.frame t = some frame ∧ scope b = frame :: scope a
  tails : ∀ a t, f.terminator a = some t → ∀ b ∈ t.tail?, f.IsBlock b ∧ scope b = scope a
  merges : ∀ a t kind, f.terminator a = some t → t.merges = some kind →
    ∃ frame ∈ scope a, kind frame = true
  joins : ∀ a token, f.terminator a = some (.join token) → (∃ tail, .control token tail ∈ scope a) ∨
    ∀ c inside tail, f.terminator c = some (.control inside tail) → f.token inside ≠ some token
  tokens : ∀ c c' inside inside' tail tail' token,
    f.terminator c = some (.control inside tail) → f.terminator c' = some (.control inside' tail') →
    f.token inside = some token → f.token inside' = some token → c = c'
  once : ∀ a t, f.terminator a = some t → t.structuralTargets.Nodup
  apart : ∀ a a' t t' b, f.terminator a = some t → f.terminator a' = some t' →
    b ∈ t.structuralTargets → b ∈ t'.structuralTargets → a = a'
  unjumped : ∀ a a' t t', f.terminator a = some t → f.terminator a' = some t' →
    ∀ j ∈ t.jumps, j.target ∉ t'.structuralTargets

/-! ## The order in which blocks are found -/

/-- Where the search goes on from a block, in order. The inside of a control comes before
    its tail. -/
def searchOrder (scope : AbsId → List Frame) (a : AbsId) : List AbsId :=
  match f.terminator a with
  | none => []
  | some (.control inside tail) => [inside, tail]
  | some t => t.jumps.map Jump.target ++ t.tail?.toList ++ t.bodies
      ++ (t.leaves (scope a)).map Prod.snd

end Function

/-- A depth-first search. Each node is found with the nodes that led to it, the last first. -/
def depthFirst {α : Type} [DecidableEq α] (successors : α → List α) :
    Nat → List α → α → List (α × List α) → List (α × List α)
  | 0, _, _, found => found
  | fuel + 1, path, a, found =>
      if a ∈ found.map Prod.fst then found
      else (successors a).foldl (fun found b => depthFirst successors fuel (a :: path) b found)
        ((a, path) :: found)

namespace Function
variable (f : Function)

/-- The blocks of the function, each with the path on which it is first found. -/
def foundFrom (scope : AbsId → List Frame) : List (AbsId × List AbsId) :=
  depthFirst (f.searchOrder scope) (f.abstractions.length + 1) [] f.self []

/-- The construct that a step from `p` to `a` enters. -/
def enters (p a : AbsId) : Option Frame :=
  (f.terminator p).bind fun t => if a ∈ t.bodies then f.frame t else none

/-- The constructs that are entered on a path to `a`, the last one first, whether or not
    they have been left again. -/
def entered : List AbsId → AbsId → List Frame
  | [], _ => []
  | p :: path, a => (f.enters p a).toList ++ entered path p

/-- No merge stands in a block that is first found on a path that has left, by a join, the
    construct of the merge's kind that it entered last. -/
def MergesInPlace (scope : AbsId → List Frame) : Prop :=
  ∀ found ∈ f.foundFrom scope, ∀ t ∈ f.terminator found.1, ∀ kind ∈ t.merges,
    (f.entered found.2 found.1).find? kind = (scope found.1).find? kind

end Function

end Shady
