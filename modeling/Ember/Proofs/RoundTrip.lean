import Ember.Parse
import Ember.Proofs.Grammar.Lines
import Ember.Proofs.Tree.Tabs

/-!
# Round trip — canonical text is read as the trees it was written from

Every well-shaped program has a canonical text (`Tree.writeProgram`), with parentheses only where a
looser operand needs them. The parser reads it back as the same trees up to places, unless they are
nested deeper than it follows. So no alternative of the grammar shadows another one on canonical
text, and operators bind as `Tree.precedence` says.

* `Readings`: what is said about trees in each role.
* `readings_of_shaped`: well-shaped trees are read in their role.
* `program_round_trip`: the parser undoes `Tree.writeProgram`.
-/

namespace Ember

open Grammar

/-! ### Trees -/

/-- The tree is read from its canonical text wherever its role lets it stand. -/
def Readings : Tree.Role → Tree → Prop
  | .expression, t => Readable t.precedence t t.write
  | .statement, t =>
    LineReadable t t.write ∧ (t.kind? = some .ifStmt → ConditionalReadable t t.write)
  | .block, t => BlockReadable t t.write
  | .branch, t => BranchReadable t t.write

/-- Every operator is among the operators of its level. -/
theorem level_of_operator {op : String} (h : op ∈ Tree.strictOperators ++ Tree.lazyOperators) :
    Tree.levelOf op < 6 ∧ op ∈ operatorsAt (Tree.levelOf op) := by
  have hall : ∀ op ∈ Tree.strictOperators ++ Tree.lazyOperators,
      Tree.levelOf op < 6 ∧ op ∈ operatorsAt (Tree.levelOf op) := by decide
  exact hall op h

/-- **Each well-shaped tree is read in its role.** -/
theorem readings_of_shaped {role : Tree.Role} {t : Tree} (h : Tree.Shaped Tree.IsLiteral role t) :
    Readings role t := by
  -- by induction on the shape: nested parts are read in their own roles, at every depth
  induction h with
  | number hd =>
      obtain ⟨n, rfl, hn⟩ := hd
      exact readable_number hn
  | string => exact readable_string
  | @bool b _ =>
      cases b
      · exact readable_false
      · exact readable_true
  | nil => exact readable_nil
  | identifier hn => exact readable_identifier hn
  | array _ ih =>
      rw [Readings, Tree.write_array]
      exact readable_array ih
  | @binary op l r _ hop _ _ ihl ihr =>
      have hall : ∀ op ∈ Tree.strictOperators, ¬ (op = "&&" ∨ op = "||") := by decide
      obtain ⟨hk, hmem⟩ := level_of_operator (List.mem_append_left _ hop)
      have hl : Readable (Tree.levelOf op) l _ := ihl.enclosed (by omega)
      have hr : Readable (Tree.levelOf op + 1) r _ := ihr.enclosed (by omega)
      exact readable_binary hk hmem (if_neg (hall op hop)).symm hl hr
  | @logical op l r _ hop _ _ ihl ihr =>
      have hall : ∀ op ∈ Tree.lazyOperators, op = "&&" ∨ op = "||" := by decide
      obtain ⟨hk, hmem⟩ := level_of_operator (List.mem_append_right _ hop)
      have hl : Readable (Tree.levelOf op) l _ := ihl.enclosed (by omega)
      have hr : Readable (Tree.levelOf op + 1) r _ := ihr.enclosed (by omega)
      exact readable_binary hk hmem (if_pos (hall op hop)).symm hl hr
  | unary hop _ ih => exact readable_unary hop (ih.enclosed (by decide))
  | call _ _ ihf ihargs =>
      rw [Readings, Tree.write_call]
      exact readable_call (ihf.enclosed (Nat.le_refl 7)) ihargs
  | index _ _ iht ihi => exact readable_index (iht.enclosed (Nat.le_refl 7)) ihi
  | functionExpr hps _ ih => exact readable_functionExpr hps ih
  | functionDef hn hps _ ih => exact ⟨line_functionDef hn hps ih, fun hif => by cases hif⟩
  | letStmt hn _ ih => exact ⟨line_let hn ih, fun hif => by cases hif⟩
  | assign hn _ ih => exact ⟨line_assign hn ih, fun hif => by cases hif⟩
  | indexAssign _ _ _ iht ihi ihe =>
      have ht := iht.enclosed (Nat.le_refl 7)
      exact ⟨line_indexAssign ht ihi ihe, fun hif => by cases hif⟩
  | @ifThen _ _ s _ _ ihc ihy =>
      have hcond := conditional_ifThen (s := s) ihc ihy
      exact ⟨line_conditional hcond, fun _ => hcond⟩
  | @ifElse _ _ _ s _ _ _ ihc ihy ihn =>
      have hcond := conditional_ifElse (s := s) ihc ihy ihn
      exact ⟨line_conditional hcond, fun _ => hcond⟩
  | whileStmt _ _ ihc ihb => exact ⟨line_while ihc ihb, fun hif => by cases hif⟩
  | forStmt hn _ _ ihe ihb => exact ⟨line_for hn ihe ihb, fun hif => by cases hif⟩
  | bareReturn => exact ⟨line_bareReturn, fun hif => by cases hif⟩
  | valueReturn _ ih => exact ⟨line_valueReturn ih, fun hif => by cases hif⟩
  | blockStmt _ ih => exact ⟨line_block ih, fun hif => by cases hif⟩
  | exprStmt _ ih => exact ⟨line_expression ih, fun hif => by cases hif⟩
  | block _ ih =>
      rw [Readings, Tree.write_block]
      exact block_readable fun t ht => (ih t ht).1
  | elseBlock _ ih => exact branch_of_block ih
  | elseIf _ ih => exact branch_of_conditional (ih.2 rfl)

/-! ### Programs -/

variable {ts : List Tree}

theorem scanned_writeProgram (h : ∀ t ∈ ts, Tree.Shaped Tree.IsLiteral .statement t) :
    scanned (Tree.writeProgram ts) = Tree.inLines (ts.map Tree.write) := by
  rw [scanned, Tree.writeProgram, String.toList_ofList]
  exact expandTabs_of_tabless (.inLines (.writes fun t ht => tabless_write (h t ht)))

/-- A program is read to its end. -/
theorem program_settles (h : ∀ t ∈ ts, Tree.Shaped Tree.IsLiteral .statement t)
    (filename : String) :
    (program (Cursor.start filename (Tree.inLines (ts.map Tree.write)))).Settles fun ts' _ =>
      ts'.map Tree.unplaced = ts.map Tree.unplaced := by
  have hlines : ∀ t ∈ ts, LineReadable t t.write := fun t ht => (readings_of_shaped (h t ht)).1
  have hends : Ends [] := fun x hx => by cases hx
  have hstarts := (fresh_lines hlines fresh_nil).starts
  have hat : Cursor.At (Tree.inLines (ts.map Tree.write) ++ [])
      (Cursor.start filename (Tree.inLines (ts.map Tree.write))) :=
    Cursor.at_here (List.append_nil _).symm hstarts rfl
  unfold program
  refine settles_bind (statements_settle hlines fresh_nil hends hat) fun ts' c hc => ?_
  have hend : (endOfText c).Settles fun _ _ => True := by
    simp only [endOfText, hc.2.rest]
    exact Outcome.settles_ok.mpr trivial
  exact settles_bind hend fun _ _ _ => settles_pure (map_eq_of_forall₂ hc.1)

/-- **The parser undoes the writing of a program**, unless it is nested too deeply. -/
theorem program_round_trip (filename : String) (ts : List Tree)
    (h : ∀ t ∈ ts, Tree.Shaped Tree.IsLiteral .statement t) :
    parseProgram filename (Tree.writeProgram ts) = .error (.error (.tooDeep filename)) ∨
      ∃ ts', parseProgram filename (Tree.writeProgram ts) = .ok ts' ∧
        ts'.map Tree.unplaced = ts.map Tree.unplaced := by
  simp only [parseProgram, parseWith, scanned_writeProgram h]
  rcases program_settles h filename with ⟨ts', c, hp, hts⟩ | hp
  · simp only [hp]
    exact .inr ⟨ts', rfl, hts⟩
  · simp only [hp]
    exact .inl trivial

/-- `x = a - (b - 1)`, without places. -/
def difference : Tree :=
  .node .assign (.str "x") [.node .binary (.str "-") [.node .identifier (.str "a") [] none,
    .node .binary (.str "-") [.node .identifier (.str "b") [] none,
      .node .number (.int 1) [] none] none] none] none

theorem difference_shaped : Tree.Shaped Tree.IsLiteral .statement difference := by
  have hname : ∀ x, Text.isNameStart x → String.ofList [x] ∉ Lexeme.keywords →
      Lexeme.IsName (String.ofList [x]) := fun x hx hfree =>
    ⟨⟨x, [], String.toList_ofList, hx, fun y hy => absurd hy List.not_mem_nil⟩, hfree⟩
  have ha := hname 'a' (by decide) (by decide)
  have hb := hname 'b' (by decide) (by decide)
  have hx := hname 'x' (by decide) (by decide)
  refine .assign hx (.binary (by decide) (.identifier ha) (.binary (by decide) (.identifier hb) ?_))
  exact .number ⟨1, rfl, by decide⟩

/-- The right operand gets parentheses, and is read back as the right operand. -/
theorem difference_round_trip :
    Tree.writeProgram [difference] = "x = a - (b - 1)\n" ∧
      ∃ ts', parseProgram "main" (Tree.writeProgram [difference]) = .ok ts' ∧
        ts'.map Tree.unplaced = [difference] := by
  refine ⟨by decide +kernel, ?_⟩
  have hshaped : ∀ t ∈ [difference], Tree.Shaped Tree.IsLiteral .statement t := fun t ht => by
    rw [List.mem_singleton.mp ht]
    exact difference_shaped
  have hok : (parseProgram "main" (Tree.writeProgram [difference])).isOk = true := by
    decide +kernel
  rcases program_round_trip "main" [difference] hshaped with h | h
  · rw [h] at hok
    cases hok
  · exact h

end Ember
