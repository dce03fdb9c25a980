import Ember.Proofs.Grammar.Spelling
import Ember.Text.Lines

/-!
# Tree — canonical text holds no tabs

Tabs are replaced by spaces before a text is parsed. Canonical text holds none, not even in string
literals, so it is parsed as it stands.

* `Tabless`: a text without tabs.
* `tabless_write`: canonical text is one.
* `expandTabs_of_tabless`: replacing its tabs leaves it alone.
* `tabless_expandTabs`: replacing tabs leaves none.
-/

namespace Ember

/-- The text holds no tabs. -/
def Tabless (text : List Char) : Prop := ∀ x ∈ text, x ≠ '\t'

namespace Tabless

variable {x : Char} {a b : List Char}

instance : Decidable (Tabless a) :=
  decidable_of_iff (a.all (· ≠ '\t') = true) (by simp [Tabless])

/-- Two texts without tabs one after the other. -/
theorem append (ha : Tabless a) (hb : Tabless b) : Tabless (a ++ b) :=
  List.forall_mem_append.mpr ⟨ha, hb⟩

theorem cons (hx : x ≠ '\t') (ha : Tabless a) : Tabless (x :: a) :=
  List.forall_mem_cons.mpr ⟨hx, ha⟩

/-! ### Parts of texts -/

/-- A text between two marks. -/
theorem between {y : Char} (hx : x ≠ '\t') (hy : y ≠ '\t') (ha : Tabless a) :
    Tabless (x :: (a ++ [y])) :=
  cons hx (append ha (cons hy fun _ h => absurd h List.not_mem_nil))

/-- Parentheses have no tabs. -/
theorem enclosed {k : Nat} {t : Tree} (h : Tabless a) : Tabless (Tree.enclosed k t a) := by
  unfold Tree.enclosed
  split
  · exact between (by decide) (by decide) h
  · exact h

/-- Nor have the commas between texts. -/
theorem separated {texts : List (List Char)} (h : ∀ a ∈ texts, Tabless a) :
    Tabless (Tree.separated texts) := by
  induction texts with
  | nil => exact fun _ hx => absurd hx List.not_mem_nil
  | cons a texts ih =>
      obtain ⟨ha, htexts⟩ := List.forall_mem_cons.mp h
      cases texts with
      | nil => exact ha
      | cons b texts => exact ha.append (.cons (by decide) (.cons (by decide) (ih htexts)))

/-- The lines of a block are indented with spaces. -/
theorem inLines {texts : List (List Char)} (h : ∀ a ∈ texts, Tabless a) :
    Tabless (Tree.inLines texts) := by
  intro x hx
  obtain ⟨a, ha, hxa⟩ := List.mem_flatMap.mp hx
  exact (h a ha).append (by decide) x hxa

theorem word {n : String} (hn : Lexeme.IsWord n) : Tabless n.toList := by
  intro x hx heq
  have hchar := Grammar.isNameChar_of_isWord hn x hx
  rw [heq] at hchar
  cases hchar

/-- The digits of a number. -/
theorem digits (n : Nat) : Tabless (Nat.toDigits 10 n) := by
  intro x hx heq
  have hdigit := Grammar.isDigit_of_mem_toDigits hx
  rw [heq] at hdigit
  cases hdigit

/-- A tab in a text is written as an escape. -/
theorem literalChar (x : Char) : Tabless (Text.literalChar x) := by
  unfold Text.literalChar
  split
  next h => rcases h with rfl | rfl <;> decide
  next =>
    split
    next => decide
    next =>
      split
      next => decide
      next htab =>
        intro y hy
        rw [List.mem_singleton.mp hy]
        exact htab

/-- So a string literal has none. -/
theorem literal (t : String) : Tabless (Text.literal t).toList := by
  rw [Text.literal, String.toList_ofList]
  refine between (by decide) (by decide) fun x hx => ?_
  obtain ⟨y, -, hxy⟩ := List.mem_flatMap.mp hx
  exact literalChar y x hxy

/-- Names have no tabs, and so their list has none. -/
theorem parameters {ps : List String} (h : ∀ p ∈ ps, Lexeme.IsName p) :
    Tabless (Tree.writeParameters (ps.map .str)) := by
  refine between (by decide) (by decide) (separated fun a ha => ?_)
  obtain ⟨d, hd, rfl⟩ := List.mem_map.mp ha
  obtain ⟨p, hp, rfl⟩ := List.mem_map.mp hd
  exact word (h p hp).word

/-- Trees that are written one by one. -/
theorem writes {ts : List Tree} (h : ∀ t ∈ ts, Tabless t.write) :
    ∀ a ∈ ts.map Tree.write, Tabless a := by
  intro a ha
  obtain ⟨t, ht, rfl⟩ := List.mem_map.mp ha
  exact h t ht

end Tabless

/-! ### Whole texts -/

/-- **Canonical text holds no tabs.** -/
theorem tabless_write {role : Tree.Role} {t : Tree} (h : Tree.Shaped Tree.IsLiteral role t) :
    Tabless t.write := by
  induction h with
  | number hd =>
      obtain ⟨n, rfl, -⟩ := hd
      exact .digits n
  | @string t _ => exact .literal t
  | @bool b _ =>
      cases b
      · exact (by decide : Tabless "false".toList)
      · exact (by decide : Tabless "true".toList)
  | nil => exact (by decide : Tabless "nil".toList)
  | identifier hn => exact .word hn.word
  | array _ ih =>
      rw [Tree.write_array]
      exact .between (by decide) (by decide) (.separated (.writes ih))
  | binary hop _ _ ihl ihr =>
      have hall : ∀ op ∈ Tree.strictOperators, Tabless op.toList := by decide
      refine .append ihl.enclosed (.cons (by decide) (.append (hall _ hop) ?_))
      exact .cons (by decide) ihr.enclosed
  | logical hop _ _ ihl ihr =>
      have hall : ∀ op ∈ Tree.lazyOperators, Tabless op.toList := by decide
      refine .append ihl.enclosed (.cons (by decide) (.append (hall _ hop) ?_))
      exact .cons (by decide) ihr.enclosed
  | unary hop _ ih =>
      have hall : ∀ op ∈ Grammar.prefixOperators, Tabless op.toList := by decide
      exact .append (hall _ hop) ih.enclosed
  | call _ _ ihf ihargs =>
      rw [Tree.write_call]
      refine .append ihf.enclosed (.between (by decide) (by decide) ?_)
      exact .separated (.writes ihargs)
  | index _ _ iht ihi => exact .append iht.enclosed (.between (by decide) (by decide) ihi)
  | functionExpr hps _ ih =>
      exact .append (by decide) (.append (.parameters hps) (.cons (by decide) ih))
  | functionDef hn hps _ ih =>
      refine .append (by decide) (.cons (by decide) (.append (.word hn.word) ?_))
      exact .append (.parameters hps) (.cons (by decide) ih)
  | @letStmt _ m _ _ hn _ ih =>
      have hmark : Tabless (if m then "@mut".toList ++ [' '] else []) := by
        cases m <;> decide
      refine .append (by decide) (.cons (by decide) (.append hmark (.append (.word hn.word) ?_)))
      exact .cons (by decide) (.cons (by decide) (.cons (by decide) ih))
  | assign hn _ ih =>
      refine .append (.word hn.word) ?_
      exact .cons (by decide) (.cons (by decide) (.cons (by decide) ih))
  | indexAssign _ _ _ iht ihi ihe =>
      refine .append iht.enclosed (.cons (by decide) (.append ihi (.cons (by decide) ?_)))
      exact .cons (by decide) (.cons (by decide) (.cons (by decide) ihe))
  | ifThen _ _ ihc ihy =>
      exact .append (by decide) (.cons (by decide) (.append ihc (.cons (by decide) ihy)))
  | ifElse _ _ _ ihc ihy ihn =>
      refine .append (by decide) (.cons (by decide) (.append ihc (.cons (by decide) ?_)))
      refine .append ihy (.cons (by decide) (.append (by decide) ?_))
      exact .cons (by decide) ihn
  | whileStmt _ _ ihc ihb =>
      exact .append (by decide) (.cons (by decide) (.append ihc (.cons (by decide) ihb)))
  | forStmt hn _ _ ihe ihb =>
      refine .append (by decide) (.cons (by decide) (.append (.word hn.word) ?_))
      refine .cons (by decide) (.append (by decide) (.cons (by decide) (.append ihe ?_)))
      exact .cons (by decide) ihb
  | bareReturn => exact (by decide : Tabless "return".toList)
  | valueReturn _ ih => exact .append (by decide) (.cons (by decide) ih)
  | blockStmt _ ih => exact ih
  | exprStmt _ ih => exact ih
  | block _ ih =>
      rw [Tree.write_block]
      refine .cons (by decide) (.cons (by decide) (.append ?_ (by decide)))
      exact .inLines (.writes ih)
  | elseBlock _ ih => exact ih
  | elseIf _ ih => exact ih

/-- Text without tabs is parsed as it stands. -/
theorem expandTabs_of_tabless {text : List Char} (h : Tabless text) :
    Text.expandTabs text = text := by
  have hfrom : ∀ (text : List Char) (column : Nat), Tabless text →
      Text.expandTabsFrom column text = text := by
    intro text
    induction text with
    | nil => exact fun _ _ => rfl
    | cons x text ih =>
        intro column htext
        obtain ⟨hx, htext⟩ := List.forall_mem_cons.mp htext
        rw [Text.expandTabsFrom, if_neg hx]
        split <;> rw [ih _ htext]
  exact hfrom text 0 h

/-- No tab is left where tabs are replaced. -/
theorem tabless_expandTabs (text : List Char) : Tabless (Text.expandTabs text) := by
  have hfrom : ∀ (text : List Char) (column : Nat), Tabless (Text.expandTabsFrom column text) := by
    intro text
    induction text with
    | nil => exact fun _ _ hx => absurd hx List.not_mem_nil
    | cons x text ih =>
        intro column
        rw [Text.expandTabsFrom]
        split
        · refine .append (fun y hy => ?_) (ih _)
          rw [List.eq_of_mem_replicate hy]
          decide
        · rename_i hx
          split
          · exact .cons hx (ih _)
          · exact .cons hx (ih _)
  exact hfrom text 0

end Ember
