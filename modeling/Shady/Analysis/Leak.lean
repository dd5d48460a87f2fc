import Shady.Analysis.UsesExact

/-!
# Enclosing abstractions

Model of `shd_visit_enclosing_abstractions` of `src/shady/analysis/leak.c`, over the cells of a uses
map. The walk of a use whose user is neither an abstraction nor a declaration starts again at the node
it came from, not at the user, so that it ends only where no such use is met.
-/

set_option autoImplicit false

namespace Shady.Uses

open Stateful

variable {N : Type}

section Walk

variable (isAbstraction isDeclaration : N → Bool) {σ : Type}

/-- The loop of `shd_visit_enclosing_abstractions` from a use on. -/
def visitEnclosingFrom (map : UsesMap N) (fn : Use N → Prog σ UsesError PUnit) :
    Nat → N → Option Nat → Prog σ UsesError PUnit
  | _, _, none => pure ()
  | 0, _, some _ => throw .outOfFuel
  | fuel + 1, n, some use =>
      match map.cells[use]? with
      | none => throw .dangling
      | some cell => do
          (if isAbstraction cell.use.user then fn cell.use
            else if isDeclaration cell.use.user then pure ()
            -- the node is `n` again
            else visitEnclosingFrom map fn fuel n (map.firstUse n))
          visitEnclosingFrom map fn fuel n cell.nextUse

/-- `shd_visit_enclosing_abstractions` -/
def shdVisitEnclosingAbstractions (map : UsesMap N) (fn : Use N → Prog σ UsesError PUnit)
    (fuel : Nat) (n : N) : Prog σ UsesError PUnit :=
  visitEnclosingFrom isAbstraction isDeclaration map fn fuel n (map.firstUse n)

end Walk

/-! ## What the walk is for -/

/-- The uses that the map of a module holds. -/
def InMap (g : NodeGraph N) (exclude : NodeClass) (roots : List N) (use : Use N) (n : N) : Prop :=
  (∃ root ∈ roots, Reaches g exclude root use.user) ∧ Occurs g exclude use n

/-- No node is an operand of its operands, at any depth. -/
def Acyclic (g : NodeGraph N) (exclude : NodeClass) : Prop :=
  ∀ n, ¬ Relation.TransGen (fun n op => ∃ use : Use N, use.user = n ∧ Occurs g exclude use op) n n

section Enclosing

variable (isAbstraction isDeclaration : N → Bool) (isUse : Use N → N → Prop)

/-- From a node to a user that is neither an abstraction nor a declaration. -/
def Outwards (n user : N) : Prop :=
  ∃ use, isUse use n ∧ use.user = user ∧ isAbstraction user = false ∧ isDeclaration user = false

/-- A use by an abstraction, of a node that is reached through users that are neither abstractions
nor declarations. -/
def Encloses (n : N) (use : Use N) : Prop :=
  isAbstraction use.user = true ∧
    ∃ m, Relation.ReflTransGen (Outwards isAbstraction isDeclaration isUse) n m ∧ isUse use m

/-- The walk ends, whatever the callback is, after it was called on the enclosing uses. -/
def VisitsEnclosing (map : UsesMap N) (n : N) : Prop :=
  ∃ called : List (Use N),
    (∀ use, use ∈ called ↔ Encloses isAbstraction isDeclaration isUse n use) ∧
    ∃ enough, ∀ fuel, enough ≤ fuel → ∀ (σ : Type) (fn : Use N → Prog σ UsesError PUnit),
      shdVisitEnclosingAbstractions isAbstraction isDeclaration map fn fuel n = forM called fn

end Enclosing

/-! ## The walk -/

section Runs

variable {isAbstraction isDeclaration : N → Bool} {σ : Type}

/-- A user at which the walk stops. -/
def Stops (isAbstraction isDeclaration : N → Bool) (user : N) : Prop :=
  isAbstraction user = true ∨ isDeclaration user = true

/-- Where it stops at every user, the walk calls the callback on the abstractions among them; by
induction on the list. -/
theorem visitEnclosingFrom_stops {map : UsesMap N} (fn : Use N → Prog σ UsesError PUnit) (n : N)
    {start : Option Nat} {list : List (Use N)} (lists : Lists map.cells start list) :
    (∀ use ∈ list, Stops isAbstraction isDeclaration use.user) → ∀ fuel, list.length ≤ fuel →
      visitEnclosingFrom isAbstraction isDeclaration map fn fuel n start =
        forM (list.filter fun use => isAbstraction use.user) fn := by
  induction lists with
  | none =>
      intro _ fuel _
      cases fuel with
      | zero => rfl
      | succ fuel => rfl
  | @some address cell uses found rest ih =>
      intro stops fuel enough
      cases fuel with
      | zero => exact absurd enough (Nat.not_succ_le_zero _)
      | succ fuel =>
          have later := ih (fun use held => stops use (List.mem_cons_of_mem _ held)) fuel
            (Nat.le_of_succ_le_succ enough)
          rw [visitEnclosingFrom, found]
          simp only [later]
          cases abstraction : isAbstraction cell.use.user with
          | true =>
              rw [List.filter_cons_of_pos (by simpa using abstraction), List.forM_cons]
              rfl
          | false =>
              have declaration : isDeclaration cell.use.user = true := by
                have stop := stops cell.use List.mem_cons_self
                simpa [Stops, abstraction] using stop
              rw [List.filter_cons_of_neg (by simp [abstraction])]
              simp only [declaration, if_true, pure_bind]
              rfl

/-- From a use on behind which the walk starts again, it does not end; by induction on the depth. -/
theorem visitEnclosingFrom_never {map : UsesMap N} (fn : Use N → Prog σ UsesError PUnit) {n : N}
    {list : List (Use N)} (all : Lists map.cells (map.firstUse n) list) {again : Use N}
    (held : again ∈ list) (notStop : ¬ Stops isAbstraction isDeclaration again.user) (fuel : Nat) :
    ∀ {start : Option Nat} {rest : List (Use N)}, Lists map.cells start rest → again ∈ rest →
      ∀ s result, (visitEnclosingFrom isAbstraction isDeclaration map fn fuel n start).run s ≠
        .ok result := by
  induction fuel with
  | zero =>
      intro start rest lists member s result ran
      cases lists with
      | none => exact nomatch member
      | some found rest => exact nomatch ran
  | succ fuel ih =>
      intro start rest lists member s result ran
      cases lists with
      | none => exact nomatch member
      | @some address cell uses found rest =>
          rw [visitEnclosingFrom, found] at ran
          obtain ⟨unit, next, first, others⟩ := run_bind_eq_ok.mp ran
          cases List.mem_cons.mp member with
          | inr later => exact ih rest later next result others
          | inl here =>
              subst here
              rw [Stops, not_or, Bool.not_eq_true, Bool.not_eq_true] at notStop
              simp only [notStop.1, notStop.2, Bool.false_eq_true, if_false] at first
              exact ih all held s (unit, next) first

end Runs

/-- Where the walk stops at every user, only the uses of the node itself enclose it. -/
theorem encloses_iff_of_stops {isAbstraction isDeclaration : N → Bool} {isUse : Use N → N → Prop}
    {n : N} (stops : ∀ use, isUse use n → Stops isAbstraction isDeclaration use.user) {use : Use N} :
    Encloses isAbstraction isDeclaration isUse n use ↔
      isAbstraction use.user = true ∧ isUse use n := by
  constructor
  · rintro ⟨abstraction, m, outwards, isUse⟩
    cases Relation.ReflTransGen.cases_head outwards with
    | inl here => exact ⟨abstraction, here ▸ isUse⟩
    | inr further =>
        obtain ⟨user, ⟨first, isFirst, rfl, notAbstraction, notDeclaration⟩, -⟩ := further
        have stop := stops first isFirst
        simp [Stops, notAbstraction, notDeclaration] at stop
  · exact fun here => ⟨here.1, n, .refl, here.2⟩

/-- A node whose uses are listed is visited as it should be exactly where the walk stops at every
user. -/
theorem visitsEnclosing_iff_stops {isAbstraction isDeclaration : N → Bool}
    {isUse : Use N → N → Prop} {map : UsesMap N} {n : N} {list : List (Use N)}
    (lists : Lists map.cells (map.firstUse n) list) (exact : ∀ use, use ∈ list ↔ isUse use n) :
    VisitsEnclosing isAbstraction isDeclaration isUse map n ↔
      ∀ use, isUse use n → Stops isAbstraction isDeclaration use.user := by
  constructor
  · rintro ⟨called, -, enough, calls⟩ use held
    by_contra notStop
    have ends := calls enough (Nat.le_refl _) PUnit fun _ => pure ()
    have done : (forM called fun _ => (pure () : Prog PUnit UsesError PUnit)).run ⟨⟩ =
        .ok (⟨⟩, ⟨⟩) := by
      clear calls ends
      induction called with
      | nil => rfl
      | cons _ rest ih => rwa [List.forM_cons, pure_bind]
    rw [← ends] at done
    exact visitEnclosingFrom_never _ lists ((exact use).mpr held) notStop enough lists
      ((exact use).mpr held) _ _ done
  · intro stops
    refine ⟨list.filter fun use => isAbstraction use.user, fun use => ?_, list.length, ?_⟩
    · rw [List.mem_filter, encloses_iff_of_stops stops, exact, and_comm]
    · intro fuel enough σ fn
      exact visitEnclosingFrom_stops fn n lists (fun use held => stops use ((exact use).mp held))
        fuel enough

variable [DecidableEq N]

/-- In the uses map of a module, whatever its nodes are, the walk from a node ends after it called
the callback on the enclosing abstractions exactly if every use of the node is by an abstraction or by
a declaration. -/
theorem visitsEnclosing_iff (g : NodeGraph N) (exclude : NodeClass) (root : Option N)
    (declarations : List N) (inside : ∀ n ∈ root.toList ++ declarations, n ∈ g.nodes) {fuel : Nat}
    (enough : g.nodes.length < fuel) {map : UsesMap N}
    (created : (createUsesMap g exclude fuel root declarations).run .empty = .ok ((), map))
    (isAbstraction isDeclaration : N → Bool) (n : N) :
    VisitsEnclosing isAbstraction isDeclaration (InMap g exclude (root.toList ++ declarations))
        map n ↔
      ∀ use, InMap g exclude (root.toList ++ declarations) use n →
        isAbstraction use.user = true ∨ isDeclaration use.user = true := by
  obtain ⟨made, ran, holds⟩ := createUsesMap_holds g exclude root declarations inside enough
  rw [created] at ran
  cases ran
  obtain ⟨list, lists, holdsUses⟩ := holds n
  exact visitsEnclosing_iff_stops lists holdsUses.exact

/-! ## A function that returns a sum -/

/-- `AbsMem`, `Function`, `Return`, `PrimOp` and `IntLiteral`; class 4 is the one of mems. -/
def returnedSum : NodeGraph (Fin 5) where
  payload n := match n with
    | 0 => [⟨"abs", some 8, false, .op (some 1)⟩]
    | 1 => [⟨"body", some 2, false, .op (some 2)⟩]
    | 2 => [⟨"mem", some 4, false, .op (some 0)⟩, ⟨"args", some 1, false, .ops [some 3]⟩]
    | 3 => [⟨"operands", some 1, false, .ops [some 4, some 4]⟩]
    | 4 => []
  nodes := [0, 1, 2, 3, 4]
  names := by decide
  closed n _ field _ index op _ := by
    match op with
    | 0 | 1 | 2 | 3 | 4 => simp

/-- An operand that is no mem comes behind its user. -/
theorem returnedSum_forward {use : Use (Fin 5)} {op : Fin 5} (occurs : Occurs returnedSum 4 use op) :
    use.user < op := by
  have behind : ∀ n, ∀ entry ∈ uses returnedSum 4 n, n < entry.2 := by decide
  exact behind use.user (use, op) (mem_uses_iff.mpr ⟨rfl, occurs⟩)

theorem returnedSum_acyclic : Acyclic returnedSum 4 := by
  intro n cycle
  have forward : ∀ m, Relation.TransGen
      (fun n op => ∃ use : Use (Fin 5), use.user = n ∧ Occurs returnedSum 4 use op) n m → n < m := by
    intro m leads
    induction leads with
    | single step =>
        obtain ⟨use, rfl, occurs⟩ := step
        exact returnedSum_forward occurs
    | tail _ step ih =>
        obtain ⟨use, rfl, occurs⟩ := step
        exact Nat.lt_trans ih (returnedSum_forward occurs)
  exact lt_irrefl n (forward n cycle)

/-- The first operand of the sum. -/
def returnedSum.lhs : Use (Fin 5) := ⟨3, 1, "operands", 0⟩

theorem returnedSum_lhs : InMap returnedSum 4 [1] returnedSum.lhs 4 := by
  have isUse : ∀ {use : Use (Fin 5)} {op : Fin 5}, (use, op) ∈ uses returnedSum 4 use.user →
      Occurs returnedSum 4 use op := fun shown => (mem_uses_iff.mp shown).2
  have body : Occurs returnedSum 4 ⟨1, 2, "body", 0⟩ 2 := isUse (by decide)
  have args : Occurs returnedSum 4 ⟨2, 1, "args", 0⟩ 3 := isUse (by decide)
  exact ⟨⟨1, List.mem_singleton.mpr rfl, (Relation.ReflTransGen.refl.tail ⟨_, rfl, body⟩).tail
    ⟨_, rfl, args⟩⟩, isUse (by decide)⟩

/-- The walk from the literal, which the function encloses, does not end. -/
theorem returnedSum_not_visitsEnclosing : Acyclic returnedSum 4 ∧ ∃ map,
    (createUsesMap returnedSum 4 6 (some 1) []).run .empty = .ok ((), map) ∧
    ¬ VisitsEnclosing (· == 1) (· == 1) (InMap returnedSum 4 [1]) map 4 := by
  obtain ⟨map, ran, holds⟩ := createUsesMap_holds returnedSum 4 (some 1) [] (by decide)
    (show returnedSum.nodes.length < 6 by decide)
  refine ⟨returnedSum_acyclic, map, ran, ?_⟩
  obtain ⟨list, lists, holdsUses⟩ := holds 4
  rw [visitsEnclosing_iff_stops lists holdsUses.exact]
  intro stops
  have stop := stops returnedSum.lhs returnedSum_lhs
  simp [Stops, returnedSum.lhs] at stop

theorem visitsEnclosing_returnedSum : ∃ map,
    (createUsesMap returnedSum 4 6 (some 1) []).run .empty = .ok ((), map) ∧
    (VisitsEnclosing (· == 1) (· == 1) (InMap returnedSum 4 [1]) map 2 ↔
      ∀ use, InMap returnedSum 4 [1] use 2 → (use.user == 1) = true ∨ (use.user == 1) = true) := by
  obtain ⟨map, ran, -⟩ := createUsesMap_holds returnedSum 4 (some 1) [] (by decide)
    (show returnedSum.nodes.length < 6 by decide)
  exact ⟨map, ran, visitsEnclosing_iff returnedSum 4 (some 1) [] (by decide) (by decide) ran
    (· == 1) (· == 1) 2⟩

end Shady.Uses
