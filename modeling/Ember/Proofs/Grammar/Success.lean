import Ember.Proofs.Grammar.Settles

/-!
# Grammar — what a success says

If a parser that is put together from others succeeds, then so did some of them. And if a parser of
a single token succeeds, then its token comes next, and the text goes on after it.

* `bind_eq_ok`, `firstOf_eq_ok`, `repeatedly_eq_ok`: sequences, alternatives and repetitions.
* `lexeme_eq_ok`, `keyword_eq_ok`, `name_eq_ok`, …: tokens.
-/

namespace Ember.Grammar

variable {α β : Type} {a : α} {b : β} {c c' : Cursor} {t : Token} {p : Parser α}

/-! ### Outcomes -/

/-- Of two outcomes the first success counts, if no stop comes before it. -/
theorem Outcome.or_eq_ok {o o' : Outcome α} :
    o.or o' = .ok a c ↔ o = .ok a c ∨ o.Fails ∧ o' = .ok a c := by
  cases o with
  | ok b d => simp [Outcome.or, Outcome.Fails]
  | fail f => cases o' <;> simp [Outcome.or, Outcome.Fails]
  | stop s => simp [Outcome.or, Outcome.Fails]

/-- The names of failures do not matter to a success. -/
theorem Outcome.relabel_eq_ok {o : Outcome α} {start : Nat} {label : Cause} :
    o.relabel start label = .ok a c ↔ o = .ok a c := by
  cases o <;> simp [Outcome.relabel]

/-! ### Combinators -/

/-- In a sequence both parsers succeeded. -/
theorem bind_eq_ok {f : α → Parser β} :
    (p >>= f) c = .ok b c' ↔ ∃ a d, p c = .ok a d ∧ f a d = .ok b c' := by
  rw [bind_eq, Parser.bind]
  cases p c with
  | ok a c' => simp
  | fail e => simp
  | stop s => simp

/-- The parser that was chosen succeeded. -/
theorem ite_eq_ok {P : Prop} [Decidable P] {q : Parser α} :
    (if P then p else q) c = .ok a c' ↔ P ∧ p c = .ok a c' ∨ ¬ P ∧ q c = .ok a c' := by
  by_cases h : P <;> simp [h]

/-- The alternative that succeeded. -/
theorem firstOf_eq_ok {ps : List (Parser α)} (h : firstOf ps c = .ok a c') :
    ∃ p ∈ ps, p c = .ok a c' := by
  induction ps with
  | nil => cases h
  | cons p ps ih =>
      by_cases hps : ps = []
      · subst hps
        exact ⟨p, List.mem_cons_self, h⟩
      · rw [firstOf_cons hps, Outcome.or_eq_ok] at h
        rcases h with h | ⟨-, h⟩
        · exact ⟨p, List.mem_cons_self, h⟩
        · obtain ⟨q, hq, h⟩ := ih h
          exact ⟨q, List.mem_cons_of_mem p hq, h⟩

/-- The alternative that succeeded, after skipping. -/
theorem choice_eq_ok {label : Cause} {ps : List (Parser α)} (h : choice label ps c = .ok a c') :
    ∃ p ∈ ps, p c.skip = .ok a c' :=
  firstOf_eq_ok (Outcome.relabel_eq_ok.mp h)

/-- Either no step is made, or a first one. -/
theorem repeatedly_eq_ok {step : α → Parser α} {b : α} (h : repeatedly step a c = .ok b c') :
    (b = a ∧ c' = c) ∨ ∃ a' d, step a c = .ok a' d := by
  unfold repeatedly at h
  cases hrest : c.rest with
  | nil =>
      rw [hrest] at h
      cases h
      exact .inl ⟨rfl, rfl⟩
  | cons x xs =>
      simp only [hrest, iterate] at h
      split at h
      · exact .inr ⟨_, _, by assumption⟩
      · cases h
        exact .inl ⟨rfl, rfl⟩
      · cases h

/-! ### Tokens -/

/-- A lexeme is taken from where the cursor is. -/
theorem take_eq_ok {n : Nat} :
    Token.take c n = .ok t c' ↔ t = ⟨c, c.rest.take n⟩ ∧ c' = c.advance n := by
  simp [Token.take, eq_comm]

/-- A lexeme of the class comes next. -/
theorem lexeme_eq_ok {size? : List Char → Option Nat} {cause : Cause} :
    lexeme size? cause c = .ok t c' ↔
      ∃ n, size? c.skip.rest = some n ∧ Token.take c.skip n = .ok t c' := by
  unfold lexeme
  dsimp only
  cases size? c.skip.rest <;> simp

/-- The mark comes next. -/
theorem symbol_eq_ok {text : String} :
    symbol text c = .ok t c' ↔
      text.toList.isPrefixOf c.skip.rest ∧ Token.take c.skip text.length = .ok t c' := by
  rw [symbol, lexeme_eq_ok]
  split <;> simp_all

/-- The mark comes next on the line. -/
theorem symbolInLine_eq_ok {text : String} :
    symbolInLine text c = .ok t c' ↔ text.toList.isPrefixOf c.skipInLine.rest ∧
      Token.take c.skipInLine text.length = .ok t c' := by
  unfold symbolInLine
  dsimp only
  split <;> simp_all

/-- The operator is one of those asked for, and the text starts with it. -/
theorem operatorAt?_some {ops : List String} {op : String} {cs : List Char}
    (h : operatorAt? ops cs = some op) : op ∈ ops ∧ ∃ ds, cs = op.toList ++ ds := by
  refine ⟨List.mem_of_find?_eq_some h, ?_⟩
  have hspelled : op.toList.isPrefixOf cs = true :=
    List.find?_some (p := fun op : String => op.toList.isPrefixOf cs) h
  obtain ⟨ds, hds⟩ := List.isPrefixOf_iff_prefix.mp hspelled
  exact ⟨ds, hds.symm⟩

/-- The operator comes next on the line. -/
theorem operator_eq_ok {ops : List String} :
    operator ops c = .ok t c' ↔ ∃ op, operatorAt? ops c.skipInLine.rest = some op ∧
      Token.take c.skipInLine op.length = .ok t c' := by
  unfold operator
  dsimp only
  cases operatorAt? ops c.skipInLine.rest <;> simp

theorem prefixOperator_eq_ok {ops : List String} :
    prefixOperator ops c = .ok t c' ↔ ∃ op, operatorAt? ops c.skip.rest = some op ∧
      Token.take c.skip op.length = .ok t c' := by
  unfold prefixOperator
  dsimp only
  cases operatorAt? ops c.skip.rest <;> simp

/-- The keyword comes next, and nothing runs into it. -/
theorem keyword_eq_ok {word : String} (h : keyword word c = .ok t c') :
    word.toList.isPrefixOf c.skip.rest ∧ startsWord (c.skip.rest.drop word.length) = false ∧
      Token.take c.skip word.length = .ok t c' := by
  simp only [keyword] at h
  split at h
  · split at h
    · cases h
    · split at h
      · cases h
      · exact ⟨by assumption, by simp_all, h⟩
  · cases h

/-- A name comes next, which is no keyword in reading. -/
theorem name_eq_ok {mode : Mode} (h : name mode c = .ok t c') :
    ∃ n, Lexeme.name? c.skip.rest = some n ∧ Token.take c.skip n = .ok t c' ∧
      ¬ (mode = .read ∧ t.string ∈ Lexeme.keywords) := by
  obtain ⟨u, d, hu, h⟩ := bind_eq_ok.mp h
  obtain ⟨n, hn, htake⟩ := lexeme_eq_ok.mp hu
  rcases ite_eq_ok.mp h with ⟨-, h⟩ | ⟨hkeyword, h⟩
  · cases h
  · cases h
    exact ⟨n, hn, htake, hkeyword⟩

/-- The text is over. -/
theorem endOfText_eq_ok {u : Unit} : endOfText c = .ok u c' ↔ c.skip.rest = [] ∧ c' = c.skip := by
  unfold endOfText
  dsimp only
  cases hrest : c.skip.rest with
  | nil => simp [eq_comm]
  | cons x xs => simp

end Ember.Grammar
