import Mathlib.Data.List.Nodup
import Mathlib.Data.Fintype.Card
import Shady.Frontend.BindSucceeds

/-!
# When names are bound lexically

The pass follows lexical scoping exactly when no variable is stored a result but the first, and each
name in types, annotations and constants stands for one declaration: what is stored is always the
first result, and a name without a `mem` is one node of the arena, which is rewritten once.
-/

set_option autoImplicit false

namespace Shady.Bind

open Scoping Stateful Relation

/-! ## What is looked up -/

/-- The types and annotations of declaration `i` lead to `j`. -/
def Module.LeadsTo (m : Module) (i j : Nat) : Prop :=
  ∃ k, m.SignatureReferences i k ∧ ReflTransGen m.References k j

theorem Module.LeadsTo.step {m : Module} {i j k : Nat} (leads : m.LeadsTo i j)
    (references : m.References j k) : m.LeadsTo i k := by
  obtain ⟨first, signature, path⟩ := leads
  exact ⟨first, signature, path.tail references⟩

theorem Module.Needed.step {m : Module} {i j : Nat} (needed : m.Needed i)
    (references : m.References i j) : m.Needed j := by
  obtain ⟨start, exported, path⟩ := needed
  exact ⟨start, exported, path.tail references⟩

theorem Module.getElem?_of_scoped {m : Module} {i : Nat} {bound' : BoundDecl}
    (scoped' : m.scoped i = some bound') : ∃ decl, m[i]? = some decl ∧
      scopedValues m.topScope decl.signature = some bound'.signature ∧
      scopedContent m.topScope decl.kind = some bound'.content := by
  obtain ⟨decl, found, scoped'⟩ := Option.bind_eq_some_iff.mp scoped'
  obtain ⟨signature, ofSignature, scoped'⟩ := Option.bind_eq_some_iff.mp scoped'
  obtain ⟨content, ofContent, same⟩ := Option.bind_eq_some_iff.mp scoped'
  cases same
  exact ⟨decl, found, ofSignature, ofContent⟩

/-- A name of the module is that of one declaration. -/
theorem Module.topScope_eq_some {m : Module} {name : Name} {resolved : Resolved}
    (found : m.topScope name = some resolved) : ∃ i decl, m.findIdx? (·.name == name) = some i ∧
      m[i]? = some decl ∧ decl.name = name ∧ resolved = resolvedDecl decl i := by
  obtain ⟨i, index, found⟩ := Option.bind_eq_some_iff.mp found
  obtain ⟨decl, here, same⟩ := Option.bind_eq_some_iff.mp found
  cases same
  refine ⟨i, decl, index, here, ?_, rfl⟩
  obtain ⟨inside, named, _⟩ := List.findIdx?_eq_some_iff_getElem.mp index
  obtain ⟨_, same⟩ := List.getElem?_eq_some_iff.mp here
  rw [← same]
  exact beq_iff_eq.mp named

theorem Module.named_iff {m : Module} {name : Name} {i : Nat} :
    m.named name i = true ↔ ∃ decl, m[i]? = some decl ∧ decl.name = name := by
  rw [Module.named, Option.any_eq_true]
  constructor
  · rintro ⟨decl, found, named⟩
    exact ⟨decl, found, beq_iff_eq.mp named⟩
  · rintro ⟨decl, found, named⟩
    exact ⟨decl, found, beq_iff_eq.mpr named⟩

theorem Module.index_unique {m : Module} (unique : (m.map Decl.name).Nodup) {i j : Nat}
    {decl other : Decl} (found : m[i]? = some decl) (found' : m[j]? = some other)
    (same : decl.name = other.name) : i = j := by
  have inside : i < (m.map Decl.name).length := by
    rw [List.length_map]
    exact (List.getElem?_eq_some_iff.mp found).1
  apply (List.getElem?_inj inside unique).mp
  rw [List.getElem?_map, List.getElem?_map, found, found', Option.map_some, Option.map_some, same]

/-! ## The table of the names in types -/

/-- A needed declaration has the name without a `mem`, and lexical scoping resolves it so. -/
def Module.TypeName (m : Module) (name : Name) (resolved : Resolved) : Prop :=
  ∃ i decl, m.Needed i ∧ m.scoped i = some decl ∧
    ∃ o ∈ decl.occurrences, o.hasMem = false ∧ o.name = name ∧ o.resolved = resolved

open Classical in
noncomputable def Module.table (m : Module) (name : Name) : Option Resolved :=
  if found : ∃ resolved, m.TypeName name resolved then some found.choose else none

theorem Module.SteadyTypeNames.table_eq {m : Module} (steady : m.SteadyTypeNames) {i : Nat}
    {decl : BoundDecl} (needed : m.Needed i) (scoped' : m.scoped i = some decl) {o : Occurrence}
    (member : o ∈ decl.occurrences) (noMem : o.hasMem = false) : m.table o.name = some o.resolved := by
  have exists' : ∃ resolved, m.TypeName o.name resolved :=
    ⟨o.resolved, i, decl, needed, scoped', o, member, noMem, rfl, rfl⟩
  rw [Module.table, dif_pos exists']
  obtain ⟨j, other, needed', scopedOther, o', member', noMem', named, same⟩ := exists'.choose_spec
  rw [← same]
  exact congrArg some (steady j other needed' scopedOther i decl needed scoped' o' member' noMem' o
    member noMem named)

/-! ## The states of a run -/

/-- The types and annotations of the declarations `opened` are being rewritten, and the contents of
those that are `pending`. -/
structure Good (m : Module) (fuel : Nat) (opened pending : List Nat) (st : State) : Prop where
  agrees : ∀ name resolved, st.processed.lookup name = some resolved →
    m.table name = some resolved ∧ ∀ j, resolved.node = .declaration j → j ∈ st.newDecls
  lexical : ∀ i decl, (i, decl) ∈ st.defined →
    m.Needed i ∧ m.scoped i = some decl ∧ st.Declares decl.occurrences
  complete : ∀ i ∈ st.newDecls, i ∈ pending ∨ ∃ decl, (i, decl) ∈ st.defined
  apart : (opened ++ st.newDecls).Nodup
  inside : ∀ i ∈ opened ++ st.newDecls, i < m.length
  enough : m.length < fuel + opened.length + st.newDecls.length

variable {m : Module} {fuel : Nat} {opened pending : List Nat} {st : State}

theorem Good.fuel_pos (good : Good m fuel opened pending st) : 0 < fuel := by
  have distinct := good.apart
  have bounded : (opened ++ st.newDecls).length ≤ (List.range m.length).length :=
    (List.subperm_of_subset distinct fun i member =>
      List.mem_range.mpr (good.inside i member)).length_le
  have enough := good.enough
  rw [List.length_append, List.length_range] at bounded
  omega

theorem Good.remember (good : Good m fuel opened pending st) {name : Name} {resolved : Resolved}
    (inTable : m.table name = some resolved)
    (declared : ∀ j, resolved.node = .declaration j → j ∈ st.newDecls) :
    Good m fuel opened pending { st with processed := (name, resolved) :: st.processed } := by
  refine ⟨?_, good.lexical, good.complete, good.apart, good.inside, good.enough⟩
  intro other resolved' found
  rw [List.lookup_cons] at found
  cases same : other == name with
  | true =>
      rw [same] at found
      cases found
      rw [beq_iff_eq.mp same]
      exact ⟨inTable, declared⟩
  | false =>
      rw [same] at found
      exact good.agrees other resolved' found

/-- The types and annotations of a declaration that is not in the new module are next. -/
theorem Good.open (good : Good m (fuel + 1) opened pending st) {i : Nat} (inModule : i < m.length)
    (notOpened : i ∉ opened) (notDeclared : i ∉ st.newDecls) :
    Good m fuel (i :: opened) pending st := by
  refine ⟨good.agrees, good.lexical, good.complete, ?_, ?_, ?_⟩
  · rw [List.cons_append, List.nodup_cons, List.mem_append]
    exact ⟨fun member => member.elim notOpened notDeclared, good.apart⟩
  · intro j member
    cases List.mem_cons.mp member with
    | inl same => exact same ▸ inModule
    | inr other => exact good.inside j other
  · have enough := good.enough
    rw [List.length_cons]
    omega

theorem State.Declares.mono {st st' : State} {occurrences : List Occurrence}
    (declares : st.Declares occurrences) (more : st.newDecls ⊆ st'.newDecls) :
    st'.Declares occurrences := fun o member j same => more (declares o member j same)

theorem Good.register {i : Nat} (good : Good m fuel (i :: opened) pending st) :
    Good m fuel opened (i :: pending) { st with newDecls := st.newDecls ++ [i] } := by
  have more : st.newDecls ⊆ st.newDecls ++ [i] := List.subset_append_left _ _
  have permuted : (opened ++ (st.newDecls ++ [i])).Perm (i :: opened ++ st.newDecls) := by
    rw [← List.append_assoc]
    exact List.perm_append_singleton i (opened ++ st.newDecls)
  refine ⟨?_, ?_, ?_, permuted.nodup_iff.mpr good.apart, ?_, ?_⟩
  · intro name resolved found
    obtain ⟨inTable, declared⟩ := good.agrees name resolved found
    exact ⟨inTable, fun j same => more (declared j same)⟩
  · intro j decl member
    obtain ⟨needed, scoped', declares⟩ := good.lexical j decl member
    exact ⟨needed, scoped', declares.mono more⟩
  · intro j member
    cases List.mem_append.mp member with
    | inl earlier => exact (good.complete j earlier).imp_left (List.mem_cons_of_mem i)
    | inr here => exact .inl (List.mem_cons.mpr (.inl (List.mem_singleton.mp here)))
  · exact fun j member => good.inside j (permuted.mem_iff.mp member)
  · have enough := good.enough
    rw [List.length_append, List.length_singleton]
    rw [List.length_cons] at enough
    omega

theorem Good.define {i : Nat} {decl : BoundDecl} (good : Good m fuel opened (i :: pending) st)
    (needed : m.Needed i) (scoped' : m.scoped i = some decl) (declares : st.Declares decl.occurrences) :
    Good m (fuel + 1) opened pending { st with defined := st.defined ++ [(i, decl)] } := by
  refine ⟨good.agrees, ?_, ?_, good.apart, good.inside, ?_⟩
  · intro j other member
    cases List.mem_append.mp member with
    | inl earlier => exact good.lexical j other earlier
    | inr here =>
        cases List.mem_singleton.mp here
        exact ⟨needed, scoped', declares⟩
  · intro j member
    cases good.complete j member with
    | inl isPending =>
        cases List.mem_cons.mp isPending with
        | inl same => exact .inr ⟨decl, by rw [same]; simp⟩
        | inr other => exact .inl other
    | inr isDefined => exact .inr (isDefined.imp fun other member => List.mem_append_left _ member)
  · have enough := good.enough
    change m.length < fuel + 1 + opened.length + st.newDecls.length
    omega

theorem run_registerDecl {i : Nat} (notYet : i ∉ st.newDecls) :
    (registerDecl i).run st = .ok ((), { st with newDecls := st.newDecls ++ [i] }) := by
  apply run_bind_eq_ok.mpr
  refine ⟨st, st, rfl, ?_⟩
  rw [if_neg notYet]
  rfl

/-! ## The run -/

/-- A program that puts a declaration in the new module. -/
def Declaring (inv : State → Prop) (x : M Unit) (i : Nat) : Prop :=
  ∀ st, inv st → ∃ st', x.run st = .ok ((), st') ∧ inv st' ∧ st.newDecls ⊆ st'.newDecls ∧
    i ∈ st'.newDecls

theorem findDecl_gives {inv : State → Prop} {declare : Nat → M Unit}
    (unique : (m.map Decl.name).Nodup) {name : Name} {i : Nat} {decl : Decl}
    (index : m.findIdx? (·.name == name) = some i) (found : m[i]? = some decl)
    (named : decl.name = name) (declares : Declaring inv (declare i) i) :
    ∀ st, inv st → ∃ st', (findDecl m declare name).run st = .ok (i, st') ∧ inv st' ∧
      st.newDecls ⊆ st'.newDecls ∧ i ∈ st'.newDecls := by
  intro st start
  cases declared : st.newDecls.find? (m.named name) with
  | some j =>
      obtain ⟨other, found', named'⟩ := Module.named_iff.mp (List.find?_some declared)
      obtain rfl := Module.index_unique unique found found' (named.trans named'.symm)
      refine ⟨st, ?_, start, fun _ member => member, List.mem_of_find?_eq_some declared⟩
      apply run_bind_eq_ok.mpr
      refine ⟨st, st, rfl, ?_⟩
      simp only [declared]
      rfl
  | none =>
      obtain ⟨st', ran, kept, more, here⟩ := declares st start
      refine ⟨st', ?_, kept, more, here⟩
      apply run_bind_eq_ok.mpr
      refine ⟨st, st, rfl, ?_⟩
      simp only [declared, index]
      exact run_bind_eq_ok.mpr ⟨(), st', ran, rfl⟩

theorem serves_resolveTop {Demand : Nat → Prop} {declare : Nat → M Unit}
    (unique : (m.map Decl.name).Nodup)
    (declares : ∀ i, Demand i → Declaring (Good m fuel opened pending) (declare i) i) :
    Serves m.topScope m.table Demand (Good m fuel opened pending) (resolveTop m declare) := by
  refine ⟨?_, fun st name resolved good => good.agrees name resolved,
    fun st name resolved good inTable => good.remember inTable⟩
  intro name resolved found demanded st good
  obtain ⟨i, decl, index, here, named, rfl⟩ := Module.topScope_eq_some found
  obtain ⟨st', ran, kept, more, member⟩ :=
    findDecl_gives unique index here named (declares i (demanded i rfl)) st good
  refine ⟨st', ?_, kept, more, ?_⟩
  · apply run_bind_eq_ok.mpr
    refine ⟨i, st', ran, ?_⟩
    simp only [here]
    rfl
  · intro o inList j same
    cases List.mem_singleton.mp inList
    cases same
    exact member

theorem bindContent_gives {outer : Scope Name Resolved} {table : Name → Option Resolved}
    {Demand : Nat → Prop} {inv : State → Prop} {top : Name → M Resolved}
    (serves : Serves outer table Demand inv top) {kind : DeclKind} {content : BoundContent}
    (read : scopedContent outer kind = some content) (fits : Fits table Demand content.occurrences)
    (first : ∀ k ∈ content.stored, k = 0) :
    Gives inv (bindContent top kind) content content.occurrences := by
  have noLocals : LocalEnv [] := fun entry member => absurd member List.not_mem_nil
  cases kind with
  | globalVariable type init =>
      cases init with
      | none =>
          cases read
          exact Gives.pure _
      | some init =>
          obtain ⟨b, ofInit, same⟩ := Option.bind_eq_some_iff.mp read
          cases same
          have gives := bindValue_gives serves noLocals init ofInit fits
          exact (gives.map some).map BoundContent.value
  | constant typeHint value =>
      obtain ⟨b, ofValue, same⟩ := Option.bind_eq_some_iff.mp read
      cases same
      exact (bindValue_gives serves noLocals value ofValue fits).map fun b => BoundContent.value (some b)
  | nominalType body =>
      obtain ⟨b, ofBody, same⟩ := Option.bind_eq_some_iff.mp read
      cases same
      exact (bindValue_gives serves noLocals body ofBody fits).map fun b => BoundContent.value (some b)
  | function site params returnTypes body =>
      cases body with
      | none =>
          cases read
          exact Gives.pure _
      | some body =>
          obtain ⟨b, ofBody, same⟩ := Option.bind_eq_some_iff.mp read
          cases same
          have sameScope := inScope_push [] (paramBindings site params) outer
          rw [inScope_nil] at sameScope
          rw [← sameScope] at ofBody
          exact (bindBody_gives serves body (noLocals.push (localEnv_paramBindings site params))
            ofBody fits first).map fun b => BoundContent.body (some b)

section Run

variable (valid : m.Valid) (founded : m.Founded) (single : m.SingleVariables)
  (steady : m.SteadyTypeNames)

include valid founded single steady

/-- A needed declaration is put in the new module, unless its types and annotations are on the way
to it. -/
theorem bindDecl_declares (fuel : Nat) : ∀ (opened pending : List Nat) (i : Nat), m.Needed i →
    (∀ o ∈ opened, m.LeadsTo o i) →
    Declaring (Good m fuel opened pending) (bindDecl m fuel i) i := by
  induction fuel with
  | zero =>
      intro opened pending i _ _ st good
      exact absurd good.fuel_pos (Nat.lt_irrefl 0)
  | succ fuel ih =>
      intro opened pending i needed leads st good
      by_cases declared : i ∈ st.newDecls
      · refine ⟨st, ?_, good, fun _ member => member, declared⟩
        apply run_bind_eq_ok.mpr
        refine ⟨st, st, rfl, ?_⟩
        simp only [if_pos declared]
        rfl
      obtain ⟨bound', scoped'⟩ := Option.isSome_iff_exists.mp (valid.reads i needed)
      obtain ⟨decl, found, ofSignature, ofContent⟩ := Module.getElem?_of_scoped scoped'
      have references {o : Occurrence} (member : o ∈ bound'.occurrences) {j : Nat}
          (same : o.resolved.node = .declaration j) : m.References i j :=
        ⟨bound', scoped', o, member, same⟩
      have inTable {o : Occurrence} (member : o ∈ bound'.occurrences) (noMem : o.hasMem = false) :
          m.table o.name = some o.resolved := steady.table_eq needed scoped' member noMem
      have notOpened : i ∉ opened := by
        intro member
        obtain ⟨k, signature, path⟩ := leads i member
        exact founded i k needed signature path
      -- types and annotations
      have servesSignature : Serves m.topScope m.table
          (fun j => m.Needed j ∧ ∀ o ∈ i :: opened, m.LeadsTo o j)
          (Good m fuel (i :: opened) pending) (resolveTop m (bindDecl m fuel)) :=
        serves_resolveTop valid.unique fun j demanded =>
          ih (i :: opened) pending j demanded.1 demanded.2
      have signatureFits : Fits m.table (fun j => m.Needed j ∧ ∀ o ∈ i :: opened, m.LeadsTo o j)
          (occurrencesAll bound'.signature) := by
        intro o member
        have inDecl := List.mem_append_left bound'.content.occurrences member
        refine ⟨inTable inDecl, fun j same => ⟨needed.step (references inDecl same), ?_⟩⟩
        intro p inOpened
        cases List.mem_cons.mp inOpened with
        | inl here => exact here ▸ ⟨j, ⟨bound', scoped', o, member, same⟩, .refl⟩
        | inr outer => exact (leads p outer).step (references inDecl same)
      obtain ⟨st1, ranSignature, good1, more1, declares1⟩ :=
        bindValues_gives servesSignature (fun entry member => absurd member List.not_mem_nil)
          decl.signature ofSignature signatureFits st
          (good.open (List.getElem?_eq_some_iff.mp found).1 notOpened declared)
      -- the declaration itself
      have notYet : i ∉ st1.newDecls := (List.nodup_cons.mp good1.apart).1 ∘
        List.mem_append_right opened
      have good2 := good1.register
      -- its contents
      have servesContent : Serves m.topScope m.table (fun j => m.Needed j ∧ ∀ o ∈ opened, m.LeadsTo o j)
          (Good m fuel opened (i :: pending)) (resolveTop m (bindDecl m fuel)) :=
        serves_resolveTop valid.unique fun j demanded =>
          ih opened (i :: pending) j demanded.1 demanded.2
      have contentFits : Fits m.table (fun j => m.Needed j ∧ ∀ o ∈ opened, m.LeadsTo o j)
          bound'.content.occurrences := by
        intro o member
        have inDecl := List.mem_append_right (occurrencesAll bound'.signature) member
        exact ⟨inTable inDecl, fun j same => ⟨needed.step (references inDecl same),
          fun p inOpened => (leads p inOpened).step (references inDecl same)⟩⟩
      obtain ⟨st3, ranContent, good3, more3, declares3⟩ :=
        bindContent_gives servesContent ofContent contentFits (single i bound' needed scoped') _ good2
      have kept : st1.newDecls ⊆ st3.newDecls := fun j member => more3 (List.mem_append_left _ member)
      have allDeclared : st3.Declares bound'.occurrences := by
        intro o member j same
        cases List.mem_append.mp member with
        | inl here => exact kept (declares1 o here j same)
        | inr there => exact declares3 o there j same
      refine ⟨_, ?_, good3.define needed scoped' allDeclared, fun j member => kept (more1 member),
        more3 (List.mem_append_right _ (List.mem_singleton.mpr rfl))⟩
      apply run_bind_eq_ok.mpr
      refine ⟨st, st, rfl, ?_⟩
      simp only [if_neg declared, found]
      apply run_bind_eq_ok.mpr
      refine ⟨bound'.signature, st1, ranSignature, ?_⟩
      apply run_bind_eq_ok.mpr
      exact ⟨(), _, run_registerDecl notYet, run_bind_eq_ok.mpr ⟨bound'.content, st3, ranContent, rfl⟩⟩

theorem rewriteModule_declares : ∀ (items : List Nat), (∀ i ∈ items, m.Needed i) →
    ∀ st, Good m (m.length + 1) [] [] st →
      ∃ st', (items.forM (bindDecl m (m.length + 1))).run st = .ok ((), st') ∧
        Good m (m.length + 1) [] [] st' ∧ st.newDecls ⊆ st'.newDecls ∧ ∀ i ∈ items, i ∈ st'.newDecls
  | [], _, st, good => ⟨st, rfl, good, fun _ member => member, nofun⟩
  | i :: rest, needed, st, good => by
      obtain ⟨next, ran, kept, more, here⟩ := bindDecl_declares valid founded single steady
        (m.length + 1) [] [] i (needed i List.mem_cons_self)
        (fun o member => absurd member List.not_mem_nil) st good
      obtain ⟨st', others, done, again, there⟩ := rewriteModule_declares rest
        (fun j member => needed j (List.mem_cons_of_mem i member)) next kept
      refine ⟨st', run_bind_eq_ok.mpr ⟨(), next, ran, others⟩, done,
        fun j member => again (more member), ?_⟩
      intro j member
      cases List.mem_cons.mp member with
      | inl same => exact same ▸ again here
      | inr later => exact there j later

theorem bindsLexically : BindsLexically m := by
  have start : Good m (m.length + 1) [] [] State.initial :=
    ⟨nofun, nofun, nofun, List.nodup_nil, nofun, Nat.lt_succ_self _⟩
  obtain ⟨st, ran, good, -, exported⟩ := rewriteModule_declares valid founded single steady m.exported
    (fun i member => ⟨i, member, .refl⟩) _ start
  have defined : ∀ i ∈ st.newDecls, ∃ decl, (i, decl) ∈ st.defined := fun i member =>
    (good.complete i member).resolve_left List.not_mem_nil
  refine ⟨st, Fallible.bind_eq_ok.mpr ⟨((), st), ran, rfl⟩, ?_, fun i decl member =>
    (good.lexical i decl member).2.1⟩
  intro i needed
  apply defined
  obtain ⟨first, inModule, path⟩ := needed
  induction path with
  | refl => exact exported first inModule
  | tail _ references ih =>
      obtain ⟨decl, member⟩ := defined _ ih
      obtain ⟨_, scoped', declares⟩ := good.lexical _ decl member
      obtain ⟨other, scopedOther, o, inDecl, same⟩ := references
      cases scoped'.symm.trans scopedOther
      exact declares o inDecl _ same

end Run

/-- `@Exported fn main i32() { var i32 x, i32 y = (1, 2); return (y); }` -/
def twoVariables : Module :=
  [⟨"main", [.node false "Exported" []], .function 0 [] [.leaf "i32"] (some
    (.bindVar 1 (.node false "tuple" [.leaf "1", .leaf "2"]) ["x", "y"] [.leaf "i32", .leaf "i32"]
      (.finish [] (.node true "return" [.unbound true "y"]))))⟩]

def twoVariablesScoped : BoundDecl :=
  ⟨[.node "Exported" [], .leaf "i32"], .body (some
    (.variables 1 (.node "tuple" [.leaf "1", .leaf "2"]) [⟨"x", .leaf "i32", 0⟩, ⟨"y", .leaf "i32", 1⟩]
      (.finish [] (.node "return" [.value true "y" ⟨true, .slot 1 1⟩]))))⟩

theorem twoVariables_scoped {i : Nat} {decl : BoundDecl} (scoped' : twoVariables.scoped i = some decl) :
    i = 0 ∧ decl = twoVariablesScoped := by
  cases i with
  | zero => exact ⟨rfl, (Option.some.inj scoped').symm⟩
  | succ i => exact nomatch scoped'

theorem twoVariables_references {i j : Nat} : ¬ twoVariables.References i j := by
  rintro ⟨decl, scoped', o, member, same⟩
  obtain ⟨-, rfl⟩ := twoVariables_scoped scoped'
  cases List.mem_singleton.mp member
  exact nomatch same

theorem twoVariables_valid : twoVariables.Valid := by
  refine ⟨List.nodup_singleton _, ?_⟩
  rintro i ⟨first, exported, path⟩
  cases path with
  | refl =>
      cases List.mem_singleton.mp exported
      rfl
  | tail _ references => exact absurd references twoVariables_references

theorem twoVariables_founded : twoVariables.Founded := by
  rintro i j _ ⟨decl, scoped', o, member, same⟩
  exact absurd ⟨decl, scoped', o, List.mem_append_left _ member, same⟩ twoVariables_references

end Shady.Bind
