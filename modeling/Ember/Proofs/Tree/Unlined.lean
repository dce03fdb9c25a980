import Mathlib.Data.List.Forall2
import Ember.Proofs.Tree.Write

/-!
# Tree — trees up to lines and file names

Where a text stands in a longer one decides in which lines its trees are, but not in which columns.

* `Tree.unlined`: a tree whose places name no file and no lines.
* `Tree.Alike`: two trees differ in nothing else.
-/

namespace Ember

/-- A place without its file and its lines. -/
def Span.unlined (s : Span) : Span := { s with filename := "", startLine := 0, endLine := 0 }

namespace Tree

mutual

/-- A tree whose places name no file and no lines. -/
def unlined : Tree → Tree
  | node kind value children span => node kind value (unlinedAll children) (span.map Span.unlined)
  | stray d => stray d

/-- Trees whose places name no file and no lines. -/
def unlinedAll : List Tree → List Tree
  | [] => []
  | t :: ts => unlined t :: unlinedAll ts

end

@[simp] theorem unlinedAll_eq_map (ts : List Tree) : unlinedAll ts = ts.map unlined := by
  induction ts with
  | nil => rfl
  | cons t ts ih => rw [unlinedAll, ih, List.map_cons]

/-- A node without lines has parts without lines. -/
@[simp] theorem unlined_node (kind : Kind) (value : Datum) (ts : List Tree) (s : Option Span) :
    (node kind value ts s).unlined = node kind value (ts.map unlined) (s.map Span.unlined) := by
  rw [unlined, unlinedAll_eq_map]

/-- The trees differ in lines and file names only. -/
def Alike (t t' : Tree) : Prop := t.unlined = t'.unlined

/-- Trees that are alike one by one are the same without lines. -/
theorem map_unlined {ts ts' : List Tree} (h : List.Forall₂ Alike ts ts') :
    ts.map unlined = ts'.map unlined := by
  induction h with
  | nil => rfl
  | cons ht _ ih => rw [List.map_cons, List.map_cons, ih, ht]

/-- Nodes are alike if their parts and places are. -/
theorem alike_node {kind : Kind} {value : Datum} {ts ts' : List Tree} {s s' : Option Span}
    (hts : List.Forall₂ Alike ts ts') (hs : s.map Span.unlined = s'.map Span.unlined) :
    Alike (node kind value ts s) (node kind value ts' s') := by
  rw [Alike, unlined_node, unlined_node, map_unlined hts, hs]

/-- Trees that are alike have parts that are alike. -/
theorem Alike.cases {kind : Kind} {value : Datum} {ts : List Tree} {s : Option Span} {t' : Tree}
    (h : Alike (node kind value ts s) t') :
    ∃ ts' s', t' = node kind value ts' s' ∧ List.Forall₂ Alike ts ts' ∧
      s.map Span.unlined = s'.map Span.unlined := by
  cases t' with
  | stray d =>
      rw [Alike, unlined_node, unlined] at h
      cases h
  | node kind' value' ts' s' =>
      rw [Alike, unlined_node, unlined_node] at h
      injection h with hkind hvalue hts hs
      subst hkind hvalue
      refine ⟨ts', s', rfl, ?_, hs⟩
      rw [← List.forall₂_eq_eq_eq, List.forall₂_map_left_iff, List.forall₂_map_right_iff] at hts
      exact hts

/-- Trees that are alike have places that differ in lines only. -/
theorem Alike.span {t t' : Tree} (h : Alike t t') :
    t.span.map Span.unlined = t'.span.map Span.unlined := by
  cases t with
  | node kind value ts s =>
      obtain ⟨ts', s', rfl, -, hs⟩ := h.cases
      exact hs
  | stray d =>
      cases t' with
      | stray => rfl
      | node =>
          rw [Alike, unlined_node, unlined] at h
          cases h

end Tree

end Ember
