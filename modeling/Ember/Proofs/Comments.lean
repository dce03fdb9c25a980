import Ember.Parse
import Ember.Proofs.Grammar.Comment.Statement
import Ember.Proofs.Tree.Tabs

/-!
# Comments — comments are read as blank space

If the comments of a program are replaced by blank space, the parser reads the same trees, at the
same places, or refuses both texts. Comments may stand between any two lexemes. Only those that
decide how the text is read are left (`Lexeme.decisive`): after `return` where a value comes next on
the line, and over the end of a line where an operator or a bracket comes next.

* `parseProgram_eq_of_veil`: a text and one with some of its comments as blank space.
* `comments_are_blank`: a text and the one with its comments as blank space.
* `comment_ends_return`: not so with the comment between `return` and a value.
-/

namespace Ember

open Lexeme (Dims Veil blankComments decisive veil_blankFrom)
open Grammar (Parser Agree)

/-- What is read of a text, if it is not refused. -/
theorem toOption_parseWith {α : Type} (p : Parser α) (filename source : String) :
    (parseWith p filename source).toOption
      = match p (Cursor.start filename (scanned source)) with
        | .ok a _ => some a
        | _ => none := by
  simp only [parseWith]
  cases p (Cursor.start filename (scanned source)) with
  | ok a c => rfl
  | fail f => rfl
  | stop reason => cases reason <;> rfl

theorem tabless_of_dims {cs ds : List Char} (h : List.Forall₂ Dims cs ds) (hcs : Tabless cs) :
    Tabless ds := by
  induction h with
  | nil => exact hcs
  | @cons x y xs ys hxy _ ih =>
      obtain ⟨hx, hxs⟩ := List.forall_mem_cons.mp hcs
      refine .cons ?_ (ih hxs)
      rcases hxy with rfl | ⟨-, rfl⟩
      · exact hx
      · decide

/-- **A program is read alike with some of its comments as blank space**, if those that decide how
it is read are left. -/
theorem parseProgram_eq_of_veil {source : String} {ds : List Char} (h : Veil [] (scanned source) ds)
    (filename : String) :
    (parseProgram filename source).toOption
      = (parseProgram filename (String.ofList ds)).toOption := by
  have hscanned : scanned (String.ofList ds) = ds := by
    rw [scanned, String.toList_ofList]
    exact expandTabs_of_tabless (tabless_of_dims h.dims (tabless_expandTabs _))
  have hstart : Cursor.Veiled false (Cursor.start filename (scanned source))
      (Cursor.start filename ds) := ⟨⟨rfl, rfl, rfl⟩, fun _ => rfl, [], nofun, h⟩
  have hagrees := Grammar.agree_program _ _ hstart
  rw [parseProgram, parseProgram, toOption_parseWith, toOption_parseWith, hscanned]
  generalize Grammar.program (Cursor.start filename (scanned source)) = o at hagrees
  generalize Grammar.program (Cursor.start filename ds) = o' at hagrees
  cases hagrees with
  | ok hts _ => rw [hts]
  | fail f f' => rfl
  | fatal f f' => rfl
  | stop s => rfl

/-- **Comments are read as blank space.** The trees of a program and their places are the same if
its comments are replaced by blank space, except for those that decide how it is read. -/
theorem comments_are_blank (filename source : String) :
    (parseProgram filename source).toOption
      = (parseProgram filename
          (String.ofList (blankComments decisive (scanned source)))).toOption :=
  parseProgram_eq_of_veil (veil_blankFrom (fun _ _ h => h) (Nat.le_refl _) []) filename

example : String.ofList (blankComments decisive
      "let a = 1 /* b */ + 2 // c\nreturn /* d */ \"/* e */\"".toList)
    = "let a = 1         + 2     \nreturn /* d */ \"/* e */\"" := by decide +kernel

/-- A comment ends a return, so that the value after it is another statement. With blank space in
its place, the value is given back. -/
theorem comment_ends_return :
    ¬ ∀ filename source : String, (parseProgram filename source).toOption
      = (parseProgram filename
          (String.ofList (blankComments (fun _ _ => false) (scanned source)))).toOption := by
  intro hall
  have hsame := hall "sample" "fun f() \x7b return /* c */ 5 \x7d"
  have hlines := congrArg (Option.map (List.map Tree.oneLine)) hsame
  exact absurd hlines (by decide +kernel)

/-- A comment at the start of a line lets an operator after it go on with the operand on the line
before. With blank space in its place, the line is another statement. -/
example :
    let statements (source : String) := (parseProgram "sample" source).toOption.map List.length
    statements "let a = 1\n/* c */ - 3" = some 1 ∧
      statements "let a = 1\n        - 3" = some 2 := by
  decide +kernel

end Ember
