import Ember.Repl
import Ember.Proofs.Grammar.Balanced
import Ember.Proofs.Literals

/-!
# Open brackets — when a conversation waits for more

A conversation waits as long as brackets are open, as a scan of the input character by character
finds. The scan knows string literals, but no comments. So what it finds for a program is what it
finds in the comments of the program alone: the brackets in lexemes are all closed. This is so if
the comments have their quotation marks in pairs. A comment that leaves a literal open makes the
scan take what comes after it for the inside of a literal, up to the next quotation mark.

* `BracketScan.ofText`: the scan of a text that does not start inside a literal.
* `BracketScan.ofPieces`: the scan of a text lexeme by lexeme and comment by comment.
* `Lexeme.Crossing.scan`: the scan of a way through a text finds what is opened in lexemes and in
  comments.
* `hasOpenBrackets_iff_pieces`: whatever comments a program has, only they mislead the scan.
* `hasOpenBrackets_iff_comments`: a program is waited for if and only if its comments open brackets.
-/

namespace Ember

open Lexeme (anyBracket weight isMark digits fraction? exponent? number? name? string? stringBody?
  size after)

variable {d : Int} {cs ds : List Char} {x : Char} {xs : List Char} {n m : Nat}

namespace BracketScan

/-- The scan of a text that does not start inside a literal. -/
def ofText (cs : List Char) : BracketScan := cs.foldl step ⟨0, false, false⟩

/-! ### Depth -/

/-- The scan with more open brackets. -/
def raise (d : Int) (s : BracketScan) : BracketScan := { s with depth := d + s.depth }

/-- How many brackets are open before does not matter to what one character opens. -/
theorem step_raise (s : BracketScan) (x : Char) : (s.raise d).step x = (s.step x).raise d := by
  unfold step raise
  dsimp only
  split_ifs <;> simp [Int.add_assoc, Int.add_sub_assoc]

/-- How many brackets are open before does not matter to what a text opens. -/
theorem foldl_raise (s : BracketScan) (cs : List Char) :
    cs.foldl step (s.raise d) = (cs.foldl step s).raise d := by
  induction cs generalizing s with
  | nil => rfl
  | cons x xs ih => rw [List.foldl_cons, List.foldl_cons, step_raise, ih]

/-- Only inside of a literal a backslash escapes. -/
def Sound (s : BracketScan) : Prop := s.escaped → s.inString

/-- A character keeps a scan sound. -/
theorem Sound.step {s : BracketScan} (h : s.Sound) (x : Char) : (s.step x).Sound := by
  obtain ⟨d, inString, escaped⟩ := s
  cases inString with
  | true =>
      cases escaped with
      | true => exact fun _ => rfl
      | false =>
          simp only [BracketScan.step, if_true, Bool.false_eq_true, if_false]
          split_ifs
          · exact fun _ => rfl
          · exact fun hescaped => by cases hescaped
          · exact fun _ => rfl
  | false =>
      obtain rfl : escaped = false := Bool.eq_false_iff.mpr fun hescaped => by cases h hescaped
      simp only [BracketScan.step, Bool.false_eq_true, if_false]
      split_ifs <;> exact fun hescaped => by cases hescaped

theorem Sound.foldl {s : BracketScan} (h : s.Sound) (cs : List Char) :
    (cs.foldl BracketScan.step s).Sound := by
  induction cs generalizing s with
  | nil => exact h
  | cons x xs ih => exact ih (h.step x)

/-- The scan of a text after which no literal is open. -/
theorem foldl_of_closed (h : (ofText cs).inString = false) :
    cs.foldl step ⟨d, false, false⟩ = ⟨d + (ofText cs).depth, false, false⟩ := by
  have hsound : (ofText cs).Sound := Sound.foldl (fun hescaped => by cases hescaped) cs
  have hraise : cs.foldl step ⟨d, false, false⟩ = (ofText cs).raise d := by
    rw [ofText, ← foldl_raise, raise, Int.add_zero]
  have hescaped : (ofText cs).escaped = false := by
    by_contra hescaped
    rw [hsound (by simpa using hescaped)] at h
    cases h
  rw [hraise, raise, h, hescaped]

/-! ### Lexemes -/

/-- The character means nothing to the scan. -/
def Idle (x : Char) : Prop := x ≠ Text.doubleQuote ∧ weight x = 0

/-- Outside of literals a character other than a quotation mark counts for its weight. -/
theorem step_outside (hx : x ≠ Text.doubleQuote) :
    step ⟨d, false, false⟩ x = ⟨d + weight x, false, false⟩ := by
  simp only [step, Bool.false_eq_true, if_false, if_neg hx, weight, List.mem_cons,
    List.not_mem_nil, or_false]
  split_ifs <;> simp [Int.sub_eq_add_neg]

/-- Characters that mean nothing to the scan leave it as it is. -/
theorem foldl_idle (h : ∀ x ∈ cs, Idle x) :
    cs.foldl step ⟨d, false, false⟩ = ⟨d, false, false⟩ := by
  induction cs with
  | nil => rfl
  | cons x xs ih =>
      obtain ⟨⟨hquote, hweight⟩, hxs⟩ := List.forall_mem_cons.mp h
      rw [List.foldl_cons, step_outside hquote, hweight, Int.add_zero, ih hxs]

/-- Only marks and quotation marks mean something to the scan. -/
theorem idle_of_isMark (h : isMark x = false) (hquote : x ≠ Text.doubleQuote) : Idle x :=
  ⟨hquote, Lexeme.weight_of_not_special (Lexeme.not_special (.inl h))⟩

theorem idle_of_isDigit (h : Text.isDigit x) : Idle x := by
  refine idle_of_isMark (Lexeme.not_isMark_of_isDigit h) ?_
  rintro rfl
  exact absurd h (by decide)

theorem idle_of_isNameChar (h : Text.isNameChar x) : Idle x := by
  have hall : ∀ y ∈ [Text.doubleQuote, '(', '[', '\x7b', ')', ']', '\x7d'], ¬ Text.isNameChar y :=
    Grammar.forall_of_all (by decide)
  have hfree : ∀ y ∈ [Text.doubleQuote, '(', '[', '\x7b', ')', ']', '\x7d'], x ≠ y := by
    rintro y hy rfl
    exact hall x hy h
  simp only [List.mem_cons, List.not_mem_nil, or_false, forall_eq_or_imp, forall_eq] at hfree
  exact ⟨hfree.1, by simp [weight, hfree.2]⟩

/-- A prefix in two parts. -/
theorem idle_take_add (h : ∀ x ∈ cs.take m, Idle x) (h' : ∀ x ∈ (cs.drop m).take n, Idle x) :
    ∀ x ∈ cs.take (m + n), Idle x := by
  rw [List.take_add]
  exact List.forall_mem_append.mpr ⟨h, h'⟩

theorem idle_digits (cs : List Char) : ∀ x ∈ cs.take (digits cs), Idle x := by
  intro x hx
  rw [digits, ← List.prefix_iff_eq_take.mp (List.takeWhile_prefix _)] at hx
  exact idle_of_isDigit (List.mem_takeWhile_imp hx)

theorem idle_fraction (h : fraction? cs = some n) : ∀ x ∈ cs.take n, Idle x := by
  unfold fraction? at h
  split at h
  · rename_i ds
    split at h
    · cases h
    · rename_i k hk
      cases h
      have hdigits : digits ds = k + 1 := hk
      rw [← hdigits, Nat.add_comm, List.take_succ_cons]
      exact List.forall_mem_cons.mpr ⟨by unfold Idle; decide, idle_digits ds⟩
  · cases h

theorem idle_exponent (h : exponent? cs = some n) : ∀ x ∈ cs.take n, Idle x := by
  cases cs with
  | nil => cases h
  | cons e cs =>
      have hidle : ∀ x ∈ ['e', 'E', '+', '-'], Idle x := by
        unfold Idle
        exact Grammar.forall_of_all (by decide)
      simp only [exponent?] at h
      split at h
      · rename_i he
        split at h
        · cases h
        · rename_i k hk
          cases h
          have he : Idle e := by rcases he with rfl | rfl <;> exact hidle _ (by decide)
          cases cs with
          | nil => cases hk
          | cons s cs =>
              by_cases hs : s = '+' ∨ s = '-'
              · have hs' : Idle s := by rcases hs with rfl | rfl <;> exact hidle _ (by decide)
                simp only [if_pos hs, List.drop_succ_cons, List.drop_zero] at hk ⊢
                refine idle_take_add (m := 2) ?_ ?_
                · simp [he, hs']
                · exact (show digits cs = k + 1 from hk) ▸ idle_digits cs
              · simp only [if_neg hs, List.drop_zero] at hk ⊢
                refine idle_take_add (m := 1) ?_ ?_
                · simp [he]
                · exact (show digits (s :: cs) = k + 1 from hk) ▸ idle_digits (s :: cs)
      · cases h

/-- Nothing in a number means anything to the scan. -/
theorem idle_number (h : number? cs = some n) : ∀ x ∈ cs.take n, Idle x := by
  unfold number? at h
  split at h
  · cases h
  · rename_i k hk
    cases h
    have hdigits : digits cs = k + 1 := hk
    refine idle_take_add (idle_take_add (hdigits ▸ idle_digits cs) ?_) ?_
    · cases hf : fraction? (cs.drop (k + 1)) with
      | none => exact fun x hx => absurd hx (by simp)
      | some j => exact idle_fraction hf
    · cases he : exponent? (cs.drop (k + 1 + (fraction? (cs.drop (k + 1))).getD 0)) with
      | none => exact fun x hx => absurd hx (by simp)
      | some j => exact idle_exponent he

/-- Nothing in a name means anything to the scan. -/
theorem idle_name (h : name? cs = some n) : ∀ x ∈ cs.take n, Idle x := by
  obtain ⟨x, xs, hx, hstart, hrest⟩ := Grammar.take_name? h
  have hfirst : Idle x := idle_of_isNameChar (Grammar.isNameChar_of_isNameStart hstart)
  rw [hx]
  exact List.forall_mem_cons.mpr ⟨hfirst, fun y hy => idle_of_isNameChar (hrest y hy)⟩

/-- The scan of a literal ends with it. -/
theorem foldl_stringBody (h : stringBody? cs = some n) :
    (cs.take n).foldl step ⟨d, true, false⟩ = ⟨d, false, false⟩ := by
  induction cs using Lexeme.stringBody?.induct generalizing n with
  | case1 => cases h
  | case2 cs => simp [stringBody?] at h
  | case3 x cs hx ih =>
      rw [stringBody?, if_neg hx] at h
      obtain ⟨m, hm, rfl⟩ := Option.map_eq_some_iff.mp h
      rw [List.take_succ_cons, List.take_succ_cons, List.foldl_cons, List.foldl_cons]
      exact ih hm
  | case4 cs _ =>
      rw [Lexeme.stringBody?_cons (by decide), if_pos rfl] at h
      cases h
      rfl
  | case5 x cs hlast hquote hx =>
      rw [stringBody?, if_neg hquote, if_pos hx] at h
      · cases h
      · exact hlast
  | case6 x cs hlast hquote hx ih =>
      rw [not_or] at hx
      rw [Lexeme.stringBody?_cons hx.1, if_neg hquote, if_neg hx.2] at h
      obtain ⟨m, hm, rfl⟩ := Option.map_eq_some_iff.mp h
      rw [List.take_succ_cons, List.foldl_cons]
      have hstep : step ⟨d, true, false⟩ x = ⟨d, true, false⟩ := by
        simp [step, hx.1, hquote]
      rw [hstep]
      exact ih hm

/-- A whole string literal leaves the scan as it is, since its inside is skipped. -/
theorem foldl_string (h : string? cs = some n) :
    (cs.take n).foldl step ⟨d, false, false⟩ = ⟨d, false, false⟩ := by
  obtain ⟨xs, m, rfl, hm, rfl⟩ := Lexeme.exists_of_string? h
  rw [List.take_succ_cons, List.foldl_cons]
  exact foldl_stringBody hm

/-- Where a digit stands, a number is read. -/
theorem isSome_number? (hx : Text.isDigit x) (xs : List Char) : (number? (x :: xs)).isSome := by
  have hdigits : digits (x :: xs) = digits xs + 1 := by
    rw [digits, List.takeWhile_cons_of_pos hx, List.length_cons, digits]
  rw [number?, hdigits]
  rfl

/-- The scan of a lexeme. -/
theorem foldl_lexeme (hquote : x = Text.doubleQuote → (string? (x :: xs)).isSome) :
    ((x :: xs).take (size (x :: xs))).foldl step ⟨d, false, false⟩
      = ⟨d + weight x, false, false⟩ := by
  by_cases hmark : isMark x
  · rw [Lexeme.size_of_mark hmark]
    refine step_outside ?_
    rintro rfl
    cases hmark
  · have hzero : weight x = 0 :=
      Lexeme.weight_of_not_special (Lexeme.not_special (.inl (by simpa using hmark)))
    have hclass : Text.isDigit x ∨ Text.isNameStart x ∨ x = Text.doubleQuote := by
      simp only [isMark, Bool.and_eq_true, Bool.not_eq_true', bne_iff_ne, not_and] at hmark
      grind
    rw [hzero, Int.add_zero]
    rcases hclass with hx | hx | hx
    · obtain ⟨n, hn⟩ := Option.isSome_iff_exists.mp (isSome_number? hx xs)
      rw [Lexeme.size_of_number hn]
      exact foldl_idle (idle_number hn)
    · have hn : name? (x :: xs) = some _ := if_pos hx
      rw [Lexeme.size_of_name hn]
      exact foldl_idle (idle_name hn)
    · obtain ⟨n, hn⟩ := Option.isSome_iff_exists.mp (hquote hx)
      rw [Lexeme.size_of_string hn]
      exact foldl_string hn

/-! ### Lexemes and comments in turn -/

/-- The scan after a lexeme. Outside of literals a lexeme counts for the bracket that it is; inside
of a literal that a comment has left open it is gone through character by character. -/
def pass (s : BracketScan) (lexeme : List Char) : BracketScan :=
  if s.inString then lexeme.foldl step s
  else { s with depth := s.depth + (lexeme.head?.map weight).getD 0 }

/-- The scan of a text lexeme by lexeme and comment by comment. One of them is looked for per
element of `rounds`, so a text is as many rounds as it needs. -/
def passFrom : (rounds : List Char) → BracketScan → List Char → BracketScan
  | [], s, _ => s
  | _ :: rounds, s, cs =>
    match Cursor.commentLength? cs with
    | some n => passFrom rounds ((cs.take n).foldl step s) (cs.drop n)
    | none => passFrom rounds (s.pass (cs.take (size cs))) (after cs)

/-- The scan of a whole text lexeme by lexeme and comment by comment. -/
def ofPieces (cs : List Char) : BracketScan := passFrom cs ⟨0, false, false⟩ cs

theorem passFrom_nil (rounds : List Char) (s : BracketScan) : passFrom rounds s [] = s := by
  induction rounds with
  | nil => rfl
  | cons _ rounds ih =>
      have hpass : s.pass [] = s := by
        unfold pass
        split
        · rfl
        · simp
      change passFrom rounds (s.pass []) [] = s
      rw [hpass, ih]

/-- Both scans agree on a lexeme, wherever a literal may have been left open. -/
theorem pass_lexeme {s : BracketScan} (hs : s.Sound)
    (hquote : x = Text.doubleQuote → (string? (x :: xs)).isSome) :
    ((x :: xs).take (size (x :: xs))).foldl step s = s.pass ((x :: xs).take (size (x :: xs))) := by
  unfold pass
  split
  · rfl
  · rename_i hstring
    obtain ⟨d, inString, escaped⟩ := s
    obtain rfl : inString = false := by simpa using hstring
    obtain rfl : escaped = false := Bool.eq_false_iff.mpr fun hescaped => by cases hs hescaped
    obtain ⟨k, hk⟩ := Nat.exists_eq_succ_of_ne_zero (Lexeme.size_pos (x :: xs)).ne'
    rw [foldl_lexeme hquote, hk, List.take_succ_cons]
    rfl

end BracketScan

/-! ### Ways through a text -/

/-- **Going through lexemes and comments in turn is going through characters**, from any state of
the scan on. -/
theorem Lexeme.Crossing.passFrom_eq {k : Int} {ms : List (List Char)}
    (h : Crossing anyBracket k ms cs ds) (hds : ds = []) {s : BracketScan} (hs : s.Sound)
    (rounds : List Char) (hrounds : cs.length ≤ rounds.length) :
    cs.foldl BracketScan.step s = BracketScan.passFrom rounds s cs := by
  induction h generalizing s rounds with
  | refl cs =>
      subst hds
      exact (BracketScan.passFrom_nil rounds s).symm
  | @lexeme x xs ds k ms hplain hquote _ ih =>
      cases rounds with
      | nil => exact absurd hrounds (Nat.not_succ_le_zero _)
      | cons _ rounds =>
          have hlt := after_length_lt x xs
          have hsplit : x :: xs = (x :: xs).take (size (x :: xs)) ++ after (x :: xs) :=
            (List.take_append_drop _ _).symm
          have hfold : (x :: xs).foldl BracketScan.step s
              = (after (x :: xs)).foldl BracketScan.step
                (s.pass ((x :: xs).take (size (x :: xs)))) := by
            conv_lhs => rw [hsplit]
            rw [List.foldl_append, BracketScan.pass_lexeme hs hquote]
          rw [hfold, BracketScan.passFrom, hplain]
          refine ih hds ?_ rounds (by simp only [List.length_cons] at *; omega)
          exact BracketScan.pass_lexeme hs hquote ▸ hs.foldl _
  | @comment cs ds n k ms hn _ ih =>
      have hpos := commentLength?_pos hn
      have hle := commentLength?_le hn
      cases rounds with
      | nil => exact absurd hrounds (by simp only [List.length_nil]; omega)
      | cons _ rounds =>
          have hfold : cs.foldl BracketScan.step s
              = (cs.drop n).foldl BracketScan.step ((cs.take n).foldl BracketScan.step s) := by
            rw [← List.foldl_append, List.take_append_drop]
          rw [hfold, BracketScan.passFrom, hn]
          refine ih hds (hs.foldl _) rounds ?_
          simp only [List.length_drop, List.length_cons] at *
          omega

/-- The scan of a whole text, where no comment leaves a literal open. -/
theorem Lexeme.Crossing.scan {k : Int} {ms : List (List Char)}
    (h : Crossing anyBracket k ms cs ds) (hds : ds = [])
    (hms : ∀ m ∈ ms, (BracketScan.ofText m).inString = false) :
    cs.foldl BracketScan.step ⟨d, false, false⟩
      = ⟨d + k + (ms.map fun m => (BracketScan.ofText m).depth).sum, false, false⟩ := by
  induction h generalizing d with
  | refl cs =>
      subst hds
      simp
  | @lexeme x xs ds k ms _ hquote _ ih =>
      have hsplit : x :: xs = (x :: xs).take (size (x :: xs)) ++ after (x :: xs) :=
        (List.take_append_drop _ _).symm
      rw [hsplit, List.foldl_append, BracketScan.foldl_lexeme hquote, ih hds hms, Int.add_assoc d,
        Lexeme.weightOf_anyBracket]
  | @comment cs ds n k ms _ _ ih =>
      obtain ⟨hm, hms⟩ := List.forall_mem_cons.mp hms
      rw [← List.take_append_drop n cs, List.foldl_append, BracketScan.foldl_of_closed hm,
        List.take_append_drop]
      rw [ih hds hms, List.map_cons, List.sum_cons]
      congr 1
      omega

/-! ### Tabs -/

namespace BracketScan

/-- A tab is to the scan what a blank is. -/
theorem step_tab (s : BracketScan) : s.step '\t' = s.step ' ' := by simp [step, Text.doubleQuote]

theorem step_space_twice (s : BracketScan) : (s.step ' ').step ' ' = s.step ' ' := by
  obtain ⟨d, inString, escaped⟩ := s
  cases inString <;> cases escaped <;> rfl

/-- Blanks after a blank change nothing. -/
theorem foldl_spaces (s : BracketScan) (k : Nat) :
    (List.replicate k ' ').foldl step (s.step ' ') = s.step ' ' := by
  induction k with
  | zero => rfl
  | succ k ih => rw [List.replicate_succ, List.foldl_cons, step_space_twice, ih]

/-- Tabs are to the scan what spaces are. -/
theorem foldl_expandTabs (s : BracketScan) (column : Nat) (cs : List Char) :
    (Text.expandTabsFrom column cs).foldl step s = cs.foldl step s := by
  induction cs generalizing s column with
  | nil => rfl
  | cons x xs ih =>
      by_cases hx : x = '\t'
      · subst hx
        obtain ⟨k, column', heq⟩ := Text.expandTabsFrom_tab column xs
        rw [heq, List.foldl_cons, List.foldl_append, foldl_spaces, ih, List.foldl_cons, step_tab]
      · obtain ⟨column', heq⟩ := Text.expandTabsFrom_cons hx column xs
        rw [heq, List.foldl_cons, List.foldl_cons, ih]

end BracketScan

/-! ### Programs -/

/-- The brackets that the comments of a text open, less those that they close; those in quotation
marks do not count. -/
def openedInComments (cs : List Char) : Int :=
  ((Lexeme.comments cs).map fun m => (BracketScan.ofText m).depth).sum

/-- **Only comments mislead the scan.** Whatever comments a program has, it is waited for if and
only if brackets are open after its lexemes and comments have been gone through in turn, where each
lexeme counts for the bracket that it is unless a comment before it has left a literal open. -/
theorem hasOpenBrackets_iff_pieces {filename source : String} {ts : List Tree}
    (h : parseProgram filename source = .ok ts) :
    hasOpenBrackets source ↔ 0 < (BracketScan.ofPieces (scanned source)).depth := by
  obtain ⟨ms, hway⟩ := parseProgram_crosses h
  have hscan := hway.passFrom_eq rfl (s := ⟨0, false, false⟩) nofun _ (Nat.le_refl _)
  rw [scanned, Text.expandTabs, BracketScan.foldl_expandTabs] at hscan
  rw [hasOpenBrackets, hscan, decide_eq_true_iff]
  rfl

/-- A quotation mark in a comment hides the bracket that closes the call. -/
example : hasOpenBrackets "f(1 /* \" */)" ∧
    (BracketScan.ofPieces "f(1 /* \" */)".toList).depth = 1 := by
  decide +kernel

/-- **A program is waited for if and only if its comments open brackets.** So a conversation never
waits for a program whose comments open no more brackets than they close, if each comment has the
quotation marks in it in pairs. -/
theorem hasOpenBrackets_iff_comments {filename source : String} {ts : List Tree}
    (h : parseProgram filename source = .ok ts)
    (hclosed : ∀ m ∈ Lexeme.comments (scanned source), (BracketScan.ofText m).inString = false) :
    hasOpenBrackets source ↔ 0 < openedInComments (scanned source) := by
  obtain ⟨ms, hway⟩ := parseProgram_crosses h
  have hms : Lexeme.comments (scanned source) = ms := hway.comments_eq
  have hscan := hway.scan (d := 0) rfl (hms ▸ hclosed)
  rw [scanned, Text.expandTabs, BracketScan.foldl_expandTabs] at hscan
  rw [hasOpenBrackets, hscan, openedInComments, hms, Int.zero_add, Int.zero_add, decide_eq_true_iff]

/-- Brackets in a string literal and pairs of brackets in a comment do not make it wait. -/
theorem quotedBrackets_notAwaited : ∃ ts,
    parseProgram "<repl>" "f(\"(\") // say \"hi\" (x)" = .ok ts ∧
      ¬ hasOpenBrackets "f(\"(\") // say \"hi\" (x)" := by
  have hok : (parseProgram "<repl>" "f(\"(\") // say \"hi\" (x)").toOption.any fun _ => true := by
    decide +kernel
  have hclosed : ∀ m ∈ Lexeme.comments (scanned "f(\"(\") // say \"hi\" (x)"),
      (BracketScan.ofText m).inString = false := by decide +kernel
  obtain ⟨ts, hts, -⟩ := exists_ok_of_any hok
  refine ⟨ts, hts, fun hopen => ?_⟩
  exact absurd ((hasOpenBrackets_iff_comments hts hclosed).mp hopen) (by decide +kernel)

/-- A program that ends with an open bracket in a comment is waited for. -/
theorem commentedBracket_awaited : ∃ ts,
    parseProgram "<repl>" "1 // (" = .ok ts ∧ hasOpenBrackets "1 // (" := by
  have hok : (parseProgram "<repl>" "1 // (").toOption.any fun _ => true := by decide +kernel
  obtain ⟨ts, hts, -⟩ := exists_ok_of_any hok
  exact ⟨ts, hts, by decide +kernel⟩

end Ember
