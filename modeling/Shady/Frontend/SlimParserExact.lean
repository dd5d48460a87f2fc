import Shady.Frontend.SlimParserSound

/-!
# What the parser reads is what the grammar says

The text of a tree with the parentheses that its operators need has the fewest of all its texts, and
is read as the tree. What is read is a text of the grammar, and no other text of it begins there.
-/

set_option autoImplicit false

namespace Shady.Slim.Parser

open Fuelled

variable {frontEnd bb : Bool}

/-! ## The fewest parentheses -/

/-- A text is no worse than another text of its tree. -/
structure Rendered (frontEnd bb : Bool) (s m : Syn) : Prop where
  formed : Formed frontEnd bb m
  tree : m.tree = s.tree
  parens : m.parens ≤ s.parens
  operand : Fits (operandPlace frontEnd) s → Fits (operandPlace frontEnd) m
  fits : ∀ {place}, Fits place s → ¬ Fits place m →
    m.parens + 1 ≤ s.parens ∧ Fits (operandPlace frontEnd) m ∧ (frontEnd = true → bb = true)

/-- A text with the same operator in front. -/
theorem Rendered.of_alike {s m : Syn} (formed : Formed frontEnd bb m) (tree : m.tree = s.tree)
    (parens : m.parens ≤ s.parens) (level : m.level = s.level) (signed : m.signed = s.signed) :
    Rendered frontEnd bb s m := by
  have transfers : ∀ {place}, Fits place s → Fits place m := fun fits =>
    ⟨level ▸ fits.level, fun loose => signed ▸ fits.unsigned loose⟩
  exact ⟨formed, tree, parens, transfers, fun fits other => absurd (transfers fits) other⟩

/-- What stands at a place for a text that fits. -/
structure Placed (frontEnd bb : Bool) (place : Int) (s m : Syn) : Prop where
  formed : Formed frontEnd bb m
  fits : Fits place m
  tree : m.tree = s.tree
  parens : m.parens ≤ s.parens

theorem Rendered.placed {s m : Syn} (rendered : Rendered frontEnd bb s m) {place : Int}
    (fits : Fits place s) : Placed frontEnd bb place s (m.at place) := by
  rw [Syn.at]
  by_cases alone : Fits place m
  · rw [if_pos alone]
    exact ⟨rendered.formed, alone, rendered.tree, rendered.parens⟩
  · rw [if_neg alone]
    obtain ⟨fewer, inside, builds⟩ := rendered.fits fits alone
    refine ⟨.paren builds inside rendered.formed, ⟨?_, fun _ => rfl⟩, rendered.tree, fewer⟩
    exact Int.le_trans s.level_bounds.1 fits.level

/-- A list of operands, each one with the fewest parentheses. -/
theorem minimals_rendered {ops : List Syn}
    (rendered : ∀ s ∈ ops, Rendered frontEnd bb s (minimal s.tree))
    (fits : ∀ s ∈ ops, Fits (operandPlace frontEnd) s) :
    (∀ s ∈ minimals (trees ops), Fits (operandPlace frontEnd) s) ∧
      (∀ s ∈ minimals (trees ops), Formed frontEnd bb s) ∧
        trees (minimals (trees ops)) = trees ops ∧ allParens (minimals (trees ops)) ≤ allParens ops := by
  induction ops with
  | nil => exact ⟨fun s held => (by cases held), fun s held => (by cases held), rfl, le_refl _⟩
  | cons s ops ih =>
      have head := rendered s List.mem_cons_self
      obtain ⟨tailFits, tailFormed, tailTrees, tailParens⟩ :=
        ih (fun s held => rendered s (List.mem_cons_of_mem _ held))
          (fun s held => fits s (List.mem_cons_of_mem _ held))
      refine ⟨?_, ?_, ?_, Nat.add_le_add head.parens tailParens⟩
      · exact List.forall_mem_cons.mpr ⟨head.operand (fits s List.mem_cons_self), tailFits⟩
      · exact List.forall_mem_cons.mpr ⟨head.formed, tailFormed⟩
      · rw [trees, minimals, trees, head.tree, tailTrees]

theorem minimal_string {e : Expr} (isString : e.IsString) : ∃ l, e = .leaf l := by
  cases e with
  | leaf l => exact ⟨l, rfl⟩
  | _ => exact isString.elim

theorem minimal_untypedNumber {e : Expr} (isNumber : e.IsUntypedNumber) : ∃ l, e = .leaf l := by
  cases e with
  | leaf l => exact ⟨l, rfl⟩
  | _ => exact isNumber.elim

/-- The minimal text of the tree is no worse than any other; by induction on how that is formed. -/
theorem Formed.rendered {s : Syn} (formed : Formed frontEnd bb s) :
    Rendered frontEnd bb s (minimal s.tree) := by
  induction formed with
  | leaf => exact .of_alike .leaf rfl (le_refl _) rfl rfl
  | paren builds fits _ ih =>
      refine ⟨ih.formed, ih.tree, Nat.le_succ_of_le ih.parens, fun _ => ih.operand fits, fun _ _ => ?_⟩
      exact ⟨Nat.succ_le_succ ih.parens, ih.operand fits, builds⟩
  | @tuple bb first second rest builds fits _ ih =>
      obtain ⟨fits, formed, tree, parens⟩ := minimals_rendered ih fits
      refine .of_alike (.tuple builds fits formed) ?_ ?_ rfl rfl
      · injection tree with firstTree tree
        injection tree with secondTree restTrees
        change Expr.tuple _ _ _ = Expr.tuple _ _ _
        rw [firstTree, secondTree, restTrees]
      · simp only [trees, minimals, allParens] at parens
        simp only [Syn.tree, minimal, Syn.parens]
        omega
  | @composite bb type contents builds typed fits _ ih =>
      obtain ⟨fits, formed, tree, parens⟩ := minimals_rendered ih fits
      exact .of_alike (.composite builds typed fits formed) (congrArg (Expr.composite type) tree)
        parens rfl rfl
  | @primOp op types operands typed fits _ ih =>
      obtain ⟨fits, formed, tree, parens⟩ := minimals_rendered ih fits
      cases types with
      | absent =>
          refine .of_alike (.primOp typed fits formed) ?_ parens rfl rfl
          exact congrArg (Expr.primOp op []) tree
      | brackets first rest =>
          have same : (TypeArguments.brackets first ((rest.map Prod.snd).map (true, ·))).types =
              (TypeArguments.brackets first rest).types := by
            simp [TypeArguments.types, Function.comp_def]
          refine .of_alike (.primOp (same ▸ typed) fits formed) ?_ parens rfl rfl
          exact congrArg₂ (Expr.primOp op) same tree
  | extInstr setFits _ isString opcodeFits _ isNumber typed fits _ _ _ ih =>
      obtain ⟨fits, formed, tree, parens⟩ := minimals_rendered ih fits
      obtain ⟨set', setLeaf⟩ := minimal_string isString
      obtain ⟨opcode', opcodeLeaf⟩ := minimal_untypedNumber isNumber
      rw [Syn.tree, setLeaf, opcodeLeaf, minimal, minimal, minimal]
      rw [setLeaf] at isString
      rw [opcodeLeaf] at isNumber
      refine .of_alike (.extInstr (.value rfl) .leaf isString (.value rfl) .leaf isNumber typed fits
        formed) ?_ ?_ rfl rfl
      · rw [Syn.tree, Syn.tree, Syn.tree, Syn.tree, setLeaf, opcodeLeaf, tree]
      · exact Nat.add_le_add (Nat.zero_le _) parens
  | stackAlloc typed =>
      refine .of_alike (.stackAlloc fun type held => typed type ?_) rfl (le_refl _) rfl rfl
      rw [List.mem_singleton.mp held]
      exact List.mem_cons_self
  | @debugPrintf format args isString fits _ ih =>
      obtain ⟨fits, formed, tree, parens⟩ := minimals_rendered ih fits
      injection tree with formatTree argsTrees
      have notComposite : ¬ (minimal format.tree).tree.IsComposite := by
        rw [formatTree]
        exact isString
      refine .of_alike (.debugPrintf notComposite fits formed) ?_ parens rfl rfl
      exact congrArg₂ Expr.debugPrintf formatTree argsTrees
  | @unary op operand fits _ ih =>
      have inner := ih.placed fits
      exact .of_alike (.unary inner.fits inner.formed) (congrArg (Expr.unary op) inner.tree)
        inner.parens rfl rfl
  | @binary op lhs rhs lhsFits _ rhsFits _ lhsIh rhsIh =>
      have left := lhsIh.placed lhsFits
      have right := rhsIh.placed rhsFits
      exact .of_alike (.binary left.fits left.formed right.fits right.formed)
        (congrArg₂ (Expr.binary op) left.tree right.tree) (Nat.add_le_add left.parens right.parens)
        rfl rfl
  | call calleeFits _ fits _ calleeIh ih =>
      have callee := calleeIh.placed calleeFits
      obtain ⟨fits, formed, tree, parens⟩ := minimals_rendered ih fits
      exact .of_alike (.call callee.fits callee.formed fits formed)
        (congrArg₂ Expr.call callee.tree tree) (Nat.add_le_add callee.parens parens) rfl rfl

/-! ## The trees that have a text -/

/-- In the front end every type is read. -/
theorem SlimType.formed (t : SlimType) : t.Formed true := by
  induction t using SlimType.rec (motive_2 := fun members => members.Formed true) with
  | arr elementType size ih => exact ⟨rfl, ih⟩
  | cons type name rest typeIh restIh => exact ⟨typeIh, restIh⟩
  | ptr isReference addressSpace pointedType ih => exact ih
  | pack elementType width ih => exact ih
  | record members ih => exact ih
  | _ => exact trivial

/-- A text of a tree without a sign in front. -/
structure SpelledBy (e : Expr) (s : Syn) : Prop where
  formed : Formed true true s
  tree : s.tree = e
  unsigned : s.signed = false

theorem SpelledBy.fits {e : Expr} {s : Syn} (spelled : SpelledBy e s) : Fits 10 s :=
  ⟨s.level_bounds.2, fun _ => spelled.unsigned⟩

theorem SpelledBy.at {e : Expr} {s : Syn} (spelled : SpelledBy e s) {place : Int}
    (low : -3 ≤ place) : SpelledBy e (s.at place) ∧ Fits place (s.at place) := by
  rw [Syn.at]
  by_cases alone : Fits place s
  · rw [if_pos alone]
    exact ⟨spelled, alone⟩
  · rw [if_neg alone]
    exact ⟨⟨.paren (fun _ => rfl) spelled.fits spelled.formed, spelled.tree, rfl⟩, low, fun _ => rfl⟩

/-- Operands of valid trees. -/
structure AllSpelledBy (es : List Expr) (ops : List Syn) : Prop where
  fits : ∀ s ∈ ops, Fits (operandPlace true) s
  formed : ∀ s ∈ ops, Formed true true s
  trees : trees ops = es

theorem AllSpelledBy.nil : AllSpelledBy [] [] :=
  ⟨fun _ held => (by cases held), fun _ held => (by cases held), rfl⟩

theorem AllSpelledBy.cons {e : Expr} {es : List Expr} {s : Syn} {ops : List Syn}
    (head : SpelledBy e s) (tail : AllSpelledBy es ops) : AllSpelledBy (e :: es) (s :: ops) where
  fits := List.forall_mem_cons.mpr ⟨head.fits, tail.fits⟩
  formed := List.forall_mem_cons.mpr ⟨head.formed, tail.formed⟩
  trees := by rw [Parser.trees, head.tree, tail.trees]

mutual
/-- A valid tree is spelled by its minimal text. -/
theorem Expr.Valid.spelled {e : Expr} (valid : e.Valid) : SpelledBy e (minimal e) := by
  match e with
  | .leaf l => exact ⟨.leaf, rfl, valid⟩
  | .tuple first second rest =>
      have further := AllValid.spelled valid.2.2
      have all := (further.cons valid.2.1.spelled).cons valid.1.spelled
      refine ⟨.tuple (fun _ => rfl) all.fits all.formed, ?_, rfl⟩
      rw [minimal, Syn.tree, valid.1.spelled.tree, valid.2.1.spelled.tree, further.trees]
  | .composite type contents =>
      have all := AllValid.spelled valid
      exact ⟨.composite (fun _ => rfl) type.formed all.fits all.formed,
        congrArg (Expr.composite type) all.trees, rfl⟩
  | .primOp op [] operands =>
      have all := AllValid.spelled valid
      exact ⟨.primOp (fun type _ => type.formed) all.fits all.formed,
        congrArg (Expr.primOp op []) all.trees, rfl⟩
  | .primOp op (first :: rest) operands =>
      have all := AllValid.spelled valid
      refine ⟨.primOp (fun type _ => type.formed) all.fits all.formed, ?_, rfl⟩
      rw [minimal, Syn.tree, all.trees]
      simp [TypeArguments.types, Function.comp_def]
  | .extInstr set opcode resultType operands =>
      have all := AllValid.spelled valid.2.2
      obtain ⟨set', setLeaf⟩ := minimal_string valid.1
      obtain ⟨opcode', opcodeLeaf⟩ := minimal_untypedNumber valid.2.1
      cases setLeaf
      cases opcodeLeaf
      refine ⟨.extInstr (.value rfl) .leaf valid.1 (.value rfl) .leaf valid.2.1
        resultType.type.formed all.fits all.formed, ?_, rfl⟩
      exact congrArg (Expr.extInstr _ _ resultType) all.trees
  | .stackAlloc type => exact ⟨.stackAlloc fun type _ => type.formed, rfl, rfl⟩
  | .debugPrintf format args =>
      have head := valid.2.1.spelled
      have all := AllValid.spelled valid.2.2
      have notComposite : ¬ (minimal format).tree.IsComposite := by
        rw [head.tree]
        exact valid.1
      exact ⟨.debugPrintf notComposite (all.cons head).fits (all.cons head).formed,
        congrArg₂ Expr.debugPrintf head.tree all.trees, rfl⟩
  | .unary op operand =>
      have spelled : SpelledBy operand (minimal operand) := Expr.Valid.spelled valid
      have inner := spelled.at (show (-3 : Int) ≤ -2 by decide)
      exact ⟨.unary inner.2 inner.1.formed, congrArg (Expr.unary op) inner.1.tree, rfl⟩
  | .binary op lhs rhs =>
      have bounds := precedence_bounds op
      have left := valid.1.spelled.at (show -3 ≤ op.precedence by omega)
      have right := valid.2.spelled.at (show -3 ≤ op.precedence - 1 by omega)
      exact ⟨.binary left.2 left.1.formed right.2 right.1.formed,
        congrArg₂ (Expr.binary op) left.1.tree right.1.tree, rfl⟩
  | .call callee args =>
      have head := valid.1.spelled.at (show (-3 : Int) ≤ -1 by decide)
      have all := AllValid.spelled valid.2
      exact ⟨.call head.2 head.1.formed all.fits all.formed,
        congrArg₂ Expr.call head.1.tree all.trees, rfl⟩

theorem AllValid.spelled {es : List Expr} (valid : AllValid es) :
    AllSpelledBy es (minimals es) := by
  match es with
  | [] => exact .nil
  | e :: rest => exact .cons valid.1.spelled (AllValid.spelled valid.2)
end

/-- Without a sign in front, a text of the front end spells a valid tree. -/
theorem Formed.valid {s : Syn} (formed : Formed true bb s) (unsigned : s.signed = false) :
    s.tree.Valid := by
  have operands : ∀ {ops : List Syn}, (∀ s ∈ ops, Fits (operandPlace true) s) →
      (∀ s ∈ ops, s.signed = false → s.tree.Valid) → AllValid (trees ops) := by
    intro ops
    induction ops with
    | nil => exact fun _ _ => trivial
    | cons s ops ih =>
        intro fits valid
        have fitsHere := fits s List.mem_cons_self
        exact ⟨valid s List.mem_cons_self (fitsHere.unsigned (by decide)),
          ih (fun s held => fits s (List.mem_cons_of_mem _ held))
            (fun s held => valid s (List.mem_cons_of_mem _ held))⟩
  induction formed with
  | leaf => exact unsigned
  | paren _ fits _ ih => exact ih (fits.unsigned (by decide))
  | tuple _ fits _ ih =>
      have all := operands fits ih
      exact ⟨all.1, all.2.1, all.2.2⟩
  | composite _ _ fits _ ih => exact operands fits ih
  | primOp _ fits _ ih => exact operands fits ih
  | extInstr _ _ isString _ _ isNumber _ fits _ _ _ ih => exact ⟨isString, isNumber, operands fits ih⟩
  | stackAlloc => exact trivial
  | debugPrintf isString fits _ ih =>
      have all := operands fits ih
      exact ⟨isString, all.1, all.2⟩
  | unary fits _ ih => exact ih (fits.unsigned (by decide))
  | @binary op lhs rhs lhsFits _ rhsFits _ lhsIh rhsIh =>
      have bounds := precedence_bounds op
      exact ⟨lhsIh (lhsFits.unsigned (by omega)), rhsIh (rhsFits.unsigned (by omega))⟩
  | call calleeFits _ fits _ calleeIh ih =>
      exact ⟨calleeIh (calleeFits.unsigned (by decide)), operands fits ih⟩

/-! ## The parser -/

/-- The expression of the grammar that the tokens begin with: the tree of a text that fits and that
nothing goes on behind. -/
structure Denotes (frontEnd : Bool) (outer : Int) (tokens : List Lexeme) (e : Expr)
    (rest : List Lexeme) : Prop where
  spelled : ∃ s, Spells frontEnd true outer tokens e rest s
  stops : ¬ Continues outer rest

/-- The parser reads what the tokens denote, with enough fuel. -/
theorem Denotes.settles {outer : Int} {tokens rest : List Lexeme} {e : Expr}
    (denotes : Denotes frontEnd outer tokens e rest) (loose : -1 ≤ outer) :
    Settles (fun fuel => acceptExpr frontEnd true fuel outer tokens) (.ok (some e, rest)) := by
  obtain ⟨s, spells⟩ := denotes.spelled
  rw [spells.text, ← spells.tree]
  exact spells.formed.reads_expr spells.fits loose denotes.stops

/-- The grammar is unambiguous. -/
theorem Denotes.unique {outer : Int} {tokens rest rest' : List Lexeme} {e e' : Expr}
    (denotes : Denotes frontEnd outer tokens e rest)
    (denotes' : Denotes frontEnd outer tokens e' rest') (loose : -1 ≤ outer) :
    e' = e ∧ rest' = rest := by
  have same := (denotes.settles loose).unique (denotes'.settles loose)
  injection same with same
  injection same with sameTree sameRest
  exact ⟨(Option.some.inj sameTree).symm, sameRest.symm⟩

/-- A valid tree in its minimal text is read back, no text of a tree has fewer parentheses than the
minimal one, and whatever is read is what the grammar assigns to the tokens. -/
theorem acceptExpr_exact :
    (∀ e : Expr, e.Valid → (minimal e).tree = e ∧ ∀ rest, ¬ Continues maxPrecedence rest →
      ∃ enough, ∀ fuel, enough ≤ fuel →
        acceptExpr true true fuel maxPrecedence ((minimal e).text ++ rest) = .ok (some e, rest)) ∧
    (∀ (frontEnd : Bool) (outer : Int) (s : Syn), -1 ≤ outer → Formed frontEnd true s →
      Fits outer s → ((minimal s.tree).at outer).parens ≤ s.parens ∧
        ∀ rest, ¬ Continues outer rest → ∃ enough, ∀ fuel, enough ≤ fuel →
          acceptExpr frontEnd true fuel outer (((minimal s.tree).at outer).text ++ rest) =
            .ok (some s.tree, rest)) ∧
    (∀ (frontEnd bb : Bool) (fuel : Nat) (outer : Int) (tokens rest : List Lexeme) (e : Expr),
      -1 ≤ outer → acceptExpr frontEnd bb fuel outer tokens = .ok (some e, rest) →
        bb = true ∧ (frontEnd = true → e.Valid) ∧ Denotes frontEnd outer tokens e rest ∧
          ∀ e' rest', Denotes frontEnd outer tokens e' rest' → e' = e ∧ rest' = rest) := by
  refine ⟨fun e valid => ?_, fun frontEnd outer s loose formed fits => ?_,
    fun frontEnd bb fuel outer tokens rest e loose ran => ?_⟩
  · have spelled := valid.spelled
    refine ⟨spelled.tree, fun rest stops => ?_⟩
    have denotes : Denotes true maxPrecedence ((minimal e).text ++ rest) e rest :=
      ⟨⟨minimal e, spelled.formed, spelled.fits, spelled.tree, rfl⟩, stops⟩
    exact denotes.settles (by decide)
  · have placed := formed.rendered.placed fits
    refine ⟨placed.parens, fun rest stops => ?_⟩
    have denotes : Denotes frontEnd outer (((minimal s.tree).at outer).text ++ rest) s.tree rest :=
      ⟨⟨_, placed.formed, placed.fits, placed.tree, rfl⟩, stops⟩
    exact denotes.settles loose
  · obtain ⟨builds, spelled, stops⟩ := (sound frontEnd fuel).expr ran loose
    have denotes : Denotes frontEnd outer tokens e rest := ⟨spelled, stops⟩
    refine ⟨builds, fun isFrontEnd => ?_, denotes, fun e' rest' denotes' => ?_⟩
    · cases isFrontEnd
      obtain ⟨s, spells⟩ := spelled
      rw [← spells.tree]
      exact spells.formed.valid (spells.fits.unsigned (by omega))
    · exact denotes.unique denotes' loose

/-- `a * (b - (c - d)) # e`, where the parentheses around the difference on the right and around
the factor stay. -/
def factored : Expr :=
  let name := fun (id : String) (free : headNamed id = none) => Expr.leaf (.unbound ⟨id, free⟩)
  .binary .mul (name "a" (by decide +kernel)) (.binary .sbs
    (.binary .sub (name "b" (by decide +kernel))
      (.binary .sub (name "c" (by decide +kernel)) (name "d" (by decide +kernel))))
    (name "e" (by decide +kernel)))

theorem acceptExpr_factored : (minimal factored).parens = 2 ∧ ∃ enough, ∀ fuel, enough ≤ fuel →
    acceptExpr true true fuel maxPrecedence ((minimal factored).text ++ []) =
      .ok (some factored, []) := by
  refine ⟨by decide +kernel, (acceptExpr_exact.1 factored ?_).2 [] ?_⟩
  · exact ⟨rfl, ⟨rfl, rfl, rfl⟩, rfl⟩
  · exact fun continues => by
      obtain ⟨t, rest, same, -⟩ := continues
      cases same

/-! ## Types -/

/-- The tokens start with the text of a type. -/
def SlimType.Starts (frontEnd : Bool) (tokens : List Lexeme) (t : SlimType) (rest : List Lexeme) :
    Prop :=
  t.Formed frontEnd ∧ tokens = t.text ++ rest

theorem SlimType.Starts.reads {frontEnd : Bool} {tokens rest : List Lexeme} {t : SlimType}
    (starts : t.Starts frontEnd tokens rest) :
    Settles (fun fuel => acceptUnqualifiedType frontEnd fuel tokens) (.ok (some t, rest)) := by
  rw [starts.2]
  exact t.reads starts.1 rest

/-- No text of a type starts another one, and the parser decodes the text that the tokens start with,
if there is one. -/
theorem acceptUnqualifiedType_decodes (frontEnd : Bool) (tokens : List Lexeme) (t : SlimType)
    (rest : List Lexeme) :
    ((∃ fuel, acceptUnqualifiedType frontEnd fuel tokens = .ok (some t, rest)) ↔
      t.Starts frontEnd tokens rest) ∧
    (t.Starts frontEnd tokens rest →
      (∃ enough, ∀ fuel, enough ≤ fuel →
        acceptUnqualifiedType frontEnd fuel tokens = .ok (some t, rest)) ∧
      ∀ t' rest', t'.Starts frontEnd tokens rest' → t' = t ∧ rest' = rest) := by
  refine ⟨⟨fun read => ?_, fun starts => ?_⟩, fun starts => ⟨starts.reads, fun t' rest' starts' => ?_⟩⟩
  · obtain ⟨fuel, ran⟩ := read
    exact ((sound frontEnd fuel).type ran).symm
  · obtain ⟨enough, ran⟩ := starts.reads
    exact ⟨enough, ran enough le_rfl⟩
  · have same := starts'.reads.unique starts.reads
    injection same with same
    injection same with sameType sameRest
    exact ⟨Option.some.inj sameType, sameRest⟩

end Shady.Slim.Parser
