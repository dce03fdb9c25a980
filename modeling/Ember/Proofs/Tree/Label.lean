import Mathlib.Data.List.Basic
import Ember.Tree

/-!
# Tree — the labels of a tree, and those that show a lexeme

The label of a node is all of it but its parts. The nodes of a tree come in the order in which they
are listed, each before its parts. Some nodes show a lexeme of the text: leaves show the one that
they consist of, and a prefix operator, a call and an index show the one that they start with.
Lexemes come in the order of the text, where a call and an index start after their first part.

* `Tree.labels`: the labels of a tree, in the order of the nodes.
* `Tree.lexemes`: the labels that show a lexeme, in the order of the lexemes.
* `filter_lexemes`: for leaves, both orders are the same.
-/

namespace Ember.Tree

/-- The node is a single lexeme. -/
def Kind.isLeaf : Kind → Bool
  | number | string | identifier | bool | nil => true
  | _ => false

/-- The node starts after its first part. -/
def Kind.isSuffix : Kind → Bool
  | call | index => true
  | _ => false

/-- The node shows a lexeme. -/
def Kind.isLexeme (k : Kind) : Bool := k.isLeaf || k.isSuffix || k == unary

/-- All of a node but its parts. -/
structure Label where
  kind : Kind
  value : Datum
  span : Option Span

mutual

/-- The labels of the nodes of a tree, each before those of its parts. -/
def labels : Tree → List Label
  | node kind value children span => ⟨kind, value, span⟩ :: labelsAll children
  | stray _ => []

/-- The labels of the nodes of some trees. -/
def labelsAll : List Tree → List Label
  | [] => []
  | t :: ts => labels t ++ labelsAll ts

end

/-- The label, if it shows a lexeme. -/
def Label.shown (l : Label) : List Label := if l.kind.isLexeme then [l] else []

mutual

/-- The labels that show a lexeme, in the order of the lexemes. -/
def lexemes : Tree → List Label
  | node kind value [] span => Label.shown ⟨kind, value, span⟩
  | node kind value (t :: ts) span =>
    if kind.isSuffix then lexemes t ++ Label.shown ⟨kind, value, span⟩ ++ lexemesAll ts
    else Label.shown ⟨kind, value, span⟩ ++ lexemes t ++ lexemesAll ts
  | stray _ => []

/-- The labels of some trees that show a lexeme. -/
def lexemesAll : List Tree → List Label
  | [] => []
  | t :: ts => lexemes t ++ lexemesAll ts

end

variable {kind : Kind} {value : Datum} {span : Option Span} {t : Tree} {ts : List Tree} {l : Label}

/-- The lexemes of trees are those of each tree, in order. -/
theorem lexemesAll_eq_flatMap (ts : List Tree) : lexemesAll ts = ts.flatMap lexemes := by
  induction ts with
  | nil => rfl
  | cons t ts ih => rw [lexemesAll, ih, List.flatMap_cons]

@[simp] theorem lexemesAll_nil : lexemesAll [] = [] := rfl

@[simp] theorem lexemesAll_cons (t : Tree) (ts : List Tree) :
    lexemesAll (t :: ts) = lexemes t ++ lexemesAll ts := by rw [lexemesAll]

@[simp] theorem lexemesAll_append (ts us : List Tree) :
    lexemesAll (ts ++ us) = lexemesAll ts ++ lexemesAll us := by
  simp [lexemesAll_eq_flatMap]

/-- A node that shows no lexeme has those of its parts. -/
theorem lexemes_of_not_isLexeme (h : kind.isLexeme = false) :
    lexemes (node kind value ts span) = lexemesAll ts := by
  cases ts with
  | nil => simp [lexemes, Label.shown, h]
  | cons t ts => simp [lexemes, Label.shown, h]

/-- A node without parts is its own lexeme. -/
theorem lexemes_leaf (h : kind.isLexeme) :
    lexemes (node kind value [] span) = [⟨kind, value, span⟩] := by
  simp [lexemes, Label.shown, h]

/-- The lexemes of the parts of a node are among its own. -/
theorem lexemesAll_sublist :
    (lexemesAll ts).Sublist (lexemes (node kind value ts span)) := by
  cases ts with
  | nil => exact List.nil_sublist _
  | cons t ts =>
      rw [lexemes, lexemesAll]
      split
      · exact (List.sublist_append_left _ _).append (List.Sublist.refl _)
      · exact (List.sublist_append_right _ _).append (List.Sublist.refl _)

mutual

/-- A label that shows a lexeme is among the lexemes. -/
theorem mem_lexemes : {t : Tree} → (h : l ∈ labels t) → (hl : l.kind.isLexeme) → l ∈ lexemes t
  | node kind value ts span, h, hl => by
      rw [labels, List.mem_cons] at h
      rcases h with rfl | h
      · have hown : (⟨kind, value, span⟩ : Label) ∈ Label.shown ⟨kind, value, span⟩ := by
          simp [Label.shown, hl]
        cases ts with
        | nil => exact hown
        | cons t ts =>
            rw [lexemes]
            split <;> simp [hown]
      · exact lexemesAll_sublist.subset (mem_lexemesAll h hl)
  | stray _, h, _ => by cases h

/-- Every label that stands for a lexeme is among the lexemes. -/
theorem mem_lexemesAll : {ts : List Tree} → (h : l ∈ labelsAll ts) → (hl : l.kind.isLexeme) →
    l ∈ lexemesAll ts
  | [], h, _ => by cases h
  | t :: ts, h, hl => by
      rw [labelsAll, List.mem_append] at h
      rw [lexemesAll, List.mem_append]
      exact h.imp (fun h => mem_lexemes h hl) fun h => mem_lexemesAll h hl

end

theorem Kind.not_isLeaf_of_isSuffix (h : kind.isSuffix) : kind.isLeaf = false := by
  cases kind <;> first | rfl | cases h

/-- A label shows itself among the leaves exactly when it is one. -/
theorem filter_shown (l : Label) :
    l.shown.filter (·.kind.isLeaf) = if l.kind.isLeaf then [l] else [] := by
  by_cases hleaf : l.kind.isLeaf
  · simp [Label.shown, Kind.isLexeme, hleaf]
  · by_cases hl : l.kind.isLexeme <;> simp [Label.shown, hl, hleaf]

mutual

/-- The leaves are in the order of their lexemes. -/
theorem filter_lexemes : (t : Tree) →
    (lexemes t).filter (·.kind.isLeaf) = (labels t).filter (·.kind.isLeaf)
  | node kind value [] span => by
      rw [lexemes, labels, labelsAll, filter_shown]
      by_cases hleaf : kind.isLeaf <;> simp [hleaf]
  | node kind value (t :: ts) span => by
      rw [lexemes, labels, labelsAll, List.filter_cons, List.filter_append, ← filter_lexemes t,
        ← filter_lexemesAll ts]
      split
      · rename_i hsuffix
        rw [List.filter_append, List.filter_append, filter_shown]
        simp [Kind.not_isLeaf_of_isSuffix hsuffix]
      · rw [List.filter_append, List.filter_append, filter_shown, List.append_assoc]
        by_cases hleaf : kind.isLeaf <;> simp [hleaf]
  | stray _ => rfl

/-- The leaves among the lexemes are the leaves among the labels, in the same order. -/
theorem filter_lexemesAll : (ts : List Tree) →
    (lexemesAll ts).filter (·.kind.isLeaf) = (labelsAll ts).filter (·.kind.isLeaf)
  | [] => rfl
  | t :: ts => by
      rw [lexemesAll, labelsAll, List.filter_append, List.filter_append, filter_lexemes t,
        filter_lexemesAll ts]

end

end Ember.Tree
