import Ember.Proofs.Grammar.Passage

/-!
# Grammar — lexemes end with their line

No lexeme goes over the end of a line. So the lexeme that starts a text is the same whatever comes
after the text, if that comes on a new line.

* `NewLine`: what comes after a text is nothing or starts with a new line.
* `Boundary`: the same for what no number and no word goes over.
* `number?_append`, `name?_append`, `string?_append`, …: each class of lexemes.
* `endsStatement_append`: what decides whether a return is bare.
-/

namespace Ember.Lexeme

open Grammar (forall_of_all isSpace_of_isInlineSpace isWord_of_mem_keywords)

variable {w cs ds : List Char} {n : Nat}

/-- Nothing, or a new line. -/
def NewLine (w : List Char) : Prop := w = [] ∨ ∃ v, w = '\n' :: v

/-- Nothing, or a character that no number and no word goes over. -/
def Boundary (w : List Char) : Prop := ∀ x ∈ w.head?, x ∈ ['\n', ' ', '/']

/-- A new line is a boundary. -/
theorem NewLine.boundary (h : NewLine w) : Boundary w := by
  rcases h with rfl | ⟨v, rfl⟩
  · exact nofun
  · rintro x ⟨⟩
    exact List.mem_cons_self

/-- What holds of none of the characters that words end at does not hold of what comes next. -/
theorem Boundary.head {p : Char → Prop} (h : Boundary w) (hp : ∀ x ∈ ['\n', ' ', '/'], ¬ p x) :
    w = [] ∨ ∃ x v, w = x :: v ∧ ¬ p x := by
  cases w with
  | nil => exact .inl rfl
  | cons x v => exact .inr ⟨x, v, rfl, hp x (h x rfl)⟩

/-- A row of characters does not go on into a text that starts with another one, -/
theorem takeWhile_append_of_head {p : Char → Bool} (hw : ∀ x ∈ w.head?, ¬ p x) (cs : List Char) :
    (cs ++ w).takeWhile p = cs.takeWhile p := by
  induction cs with
  | nil =>
      cases w with
      | nil => rfl
      | cons x v => exact List.takeWhile_cons_of_neg (hw x rfl)
  | cons x xs ih =>
      by_cases hx : p x
      · rw [List.cons_append, List.takeWhile_cons_of_pos hx, List.takeWhile_cons_of_pos hx, ih]
      · rw [List.cons_append, List.takeWhile_cons_of_neg hx, List.takeWhile_cons_of_neg hx]

/-- and what is left after it keeps that text. -/
theorem dropWhile_append_of_head {p : Char → Bool} (hw : ∀ x ∈ w.head?, ¬ p x) (cs : List Char) :
    (cs ++ w).dropWhile p = cs.dropWhile p ++ w := by
  induction cs with
  | nil =>
      cases w with
      | nil => rfl
      | cons x v => exact List.dropWhile_cons_of_neg (hw x rfl)
  | cons x xs ih =>
      by_cases hx : p x
      · rw [List.cons_append, List.dropWhile_cons_of_pos hx, List.dropWhile_cons_of_pos hx, ih]
      · rw [List.cons_append, List.dropWhile_cons_of_neg hx, List.dropWhile_cons_of_neg hx,
          List.cons_append]

/-- So a row of characters of a line ends with the line, -/
theorem takeWhile_append_newLine (hw : NewLine w) {p : Char → Bool} (hp : p '\n' = false)
    (cs : List Char) : (cs ++ w).takeWhile p = cs.takeWhile p := by
  refine takeWhile_append_of_head (fun x hx => ?_) cs
  rcases hw with rfl | ⟨v, rfl⟩
  · cases hx
  · cases hx
    simp [hp]

/-- and a row of characters of lexemes at a boundary. -/
theorem takeWhile_append_boundary (hw : Boundary w) {p : Char → Bool}
    (hp : ∀ x ∈ ['\n', ' ', '/'], ¬ p x) (cs : List Char) :
    (cs ++ w).takeWhile p = cs.takeWhile p :=
  takeWhile_append_of_head (fun x hx => hp x (hw x hx)) cs

/-- Digits end there, -/
theorem digits_append (hw : Boundary w) (cs : List Char) : digits (cs ++ w) = digits cs := by
  rw [digits, takeWhile_append_boundary hw (forall_of_all (by decide)), digits]

theorem digits_le (cs : List Char) : digits cs ≤ cs.length := (List.takeWhile_prefix _).length_le

theorem drop_append {n : Nat} (hn : n ≤ cs.length) : (cs ++ w).drop n = cs.drop n ++ w :=
  List.drop_append_of_le_length hn

/-- fractions, -/
theorem fraction?_append (hw : Boundary w) (cs : List Char) :
    fraction? (cs ++ w) = fraction? cs := by
  unfold fraction?
  cases cs with
  | nil =>
      rcases hw.head (p := (· = '.')) (forall_of_all (by decide)) with rfl | ⟨x, v, rfl, hx⟩
      · rfl
      · simp [hx]
  | cons x xs =>
      rw [List.cons_append]
      by_cases hx : x = '.'
      · subst hx
        simp only [digits_append hw]
      · split
        · rename_i heq
          cases heq
          exact (hx rfl).elim
        · split
          · rename_i heq
            cases heq
            exact (hx rfl).elim
          · rfl

/-- exponents, -/
theorem exponent?_append (hw : Boundary w) (cs : List Char) :
    exponent? (cs ++ w) = exponent? cs := by
  cases cs with
  | nil =>
      rcases hw.head (p := fun x => x = 'e' ∨ x = 'E') (forall_of_all (by decide)) with
        rfl | ⟨x, v, rfl, hx⟩
      · rfl
      · simp [exponent?, hx]
  | cons m cs =>
      simp only [List.cons_append, exponent?]
      cases cs with
      | nil =>
          have hdigits : digits w = 0 := digits_append hw []
          rcases hw.head (p := fun x => x = '+' ∨ x = '-') (forall_of_all (by decide)) with
            rfl | ⟨x, v, rfl, hx⟩
          · rfl
          · simp [hx, hdigits, show digits [] = 0 from rfl]
      | cons s cs =>
          rw [List.cons_append]
          by_cases hs : s = '+' ∨ s = '-'
          · simp only [if_pos hs, List.drop_succ_cons, List.drop_zero, digits_append hw]
          · have hdigits : digits (s :: (cs ++ w)) = digits (s :: cs) := digits_append hw (s :: cs)
            simp only [if_neg hs, List.drop_zero, hdigits]

/-- A fraction is no longer than the text, -/
theorem fraction?_le (h : fraction? cs = some n) : n ≤ cs.length := by
  unfold fraction? at h
  split at h
  · rename_i xs
    have hle := digits_le xs
    split at h
    · cases h
    · rename_i hd
      cases h
      rw [List.length_cons]
      omega
  · cases h

theorem getD_fraction?_le (cs : List Char) : (fraction? cs).getD 0 ≤ cs.length := by
  cases h : fraction? cs with
  | none => exact Nat.zero_le _
  | some n => exact fraction?_le h

/-- and so do numbers. -/
theorem number?_append (hw : Boundary w) (cs : List Char) : number? (cs ++ w) = number? cs := by
  have hle := digits_le cs
  unfold number?
  rw [digits_append hw]
  split
  · rfl
  · rename_i n hn
    rw [hn] at hle
    have hfraction : fraction? ((cs ++ w).drop (n + 1)) = fraction? (cs.drop (n + 1)) := by
      rw [drop_append hle, fraction?_append hw]
    have hsum : n + 1 + (fraction? (cs.drop (n + 1))).getD 0 ≤ cs.length := by
      have hfrac := getD_fraction?_le (cs.drop (n + 1))
      rw [List.length_drop] at hfrac
      omega
    simp only [hfraction, drop_append hsum, exponent?_append hw]

/-- nor is an exponent, -/
theorem exponent?_le (h : exponent? cs = some n) : n ≤ cs.length := by
  cases cs with
  | nil => cases h
  | cons m cs =>
      simp only [exponent?] at h
      split at h
      · split at h
        · cases h
        · rename_i hd
          have hle := hd ▸ digits_le _
          cases h
          rw [List.length_drop] at hle
          rw [List.length_cons]
          omega
      · cases h

/-- nor a number. -/
theorem number?_le (h : number? cs = some n) : n ≤ cs.length := by
  have hle := digits_le cs
  unfold number? at h
  split at h
  · cases h
  · rename_i k hk
    rw [hk] at hle
    cases h
    have hfrac := getD_fraction?_le (cs.drop (k + 1))
    rw [List.length_drop] at hfrac
    cases hexp : exponent? (cs.drop (k + 1 + (fraction? (cs.drop (k + 1))).getD 0)) with
    | none =>
        rw [Option.getD_none]
        omega
    | some m =>
        have hm := exponent?_le hexp
        rw [List.length_drop] at hm
        rw [Option.getD_some]
        omega

/-- A name ends at a boundary. -/
theorem name?_append (hw : Boundary w) (hcs : cs ≠ []) : name? (cs ++ w) = name? cs := by
  obtain ⟨x, xs, rfl⟩ := List.exists_cons_of_ne_nil hcs
  rw [List.cons_append, name?, name?, takeWhile_append_boundary hw (forall_of_all (by decide))]

/-- A name is no longer than the text. -/
theorem name?_le (h : name? cs = some n) : n ≤ cs.length := by
  obtain ⟨x, xs, rfl, -, rfl⟩ := exists_of_name? h
  have hle := (List.takeWhile_prefix Text.isNameChar (l := xs)).length_le
  rw [List.length_cons]
  omega

/-- Inside of a string literal, at a character that escapes nothing. -/
theorem stringBody?_cons {c : Char} (hc : c ≠ '\\') (cs : List Char) :
    stringBody? (c :: cs) = if c = Text.doubleQuote then some 1 else
      if c = '\n' then none else (stringBody? cs).map (· + 1) := by
  rw [stringBody?]
  · simp [hc]
  · rintro d ds rfl
    exact (hc rfl).elim

/-- A string literal ends in its line or not at all. -/
theorem stringBody?_append (hw : NewLine w) (cs : List Char) :
    stringBody? (cs ++ w) = stringBody? cs := by
  induction cs using stringBody?.induct with
  | case1 =>
      rcases hw with rfl | ⟨v, rfl⟩
      · rfl
      · simp [stringBody?, Text.doubleQuote]
  | case2 cs => simp [stringBody?]
  | case3 d cs hd ih => simp [stringBody?, hd, ih]
  | case4 cs h => simp [stringBody?_cons (c := Text.doubleQuote) (by decide)]
  | case5 c cs hlast hquote hc =>
      rcases hc with rfl | rfl
      · -- a backslash that ends the text escapes no line end
        have hnil : cs = [] := by
          cases cs with
          | nil => rfl
          | cons d ds => exact (hlast d ds rfl rfl).elim
        subst hnil
        rcases hw with rfl | ⟨v, rfl⟩
        · rfl
        · simp [stringBody?, Text.doubleQuote]
      · simp [stringBody?_cons (c := '\n') (by decide), Text.doubleQuote]
  | case6 c cs _ hquote hc ih =>
      rw [not_or] at hc
      rw [List.cons_append, stringBody?_cons hc.1, stringBody?_cons hc.1, ih]

/-- It is no longer than the text. -/
theorem stringBody?_le (h : stringBody? cs = some n) : n ≤ cs.length := by
  induction cs using stringBody?.induct generalizing n with
  | case1 => cases h
  | case2 cs => simp [stringBody?] at h
  | case3 d cs hd ih =>
      rw [stringBody?, if_neg hd] at h
      obtain ⟨m, hm, rfl⟩ := Option.map_eq_some_iff.mp h
      have := ih hm
      simp only [List.length_cons]
      omega
  | case4 cs _ =>
      rw [stringBody?_cons (by decide), if_pos rfl] at h
      cases h
      simp
  | case5 c cs hlast hquote hc =>
      rcases hc with rfl | rfl
      · cases cs with
        | nil => simp [stringBody?, Text.doubleQuote] at h
        | cons d ds => exact (hlast d ds rfl rfl).elim
      · simp [stringBody?_cons (c := '\n') (by decide), Text.doubleQuote] at h
  | case6 c cs _ hquote hc ih =>
      rw [not_or] at hc
      rw [stringBody?_cons hc.1, if_neg hquote, if_neg hc.2] at h
      obtain ⟨m, hm, rfl⟩ := Option.map_eq_some_iff.mp h
      have := ih hm
      simp only [List.length_cons]
      omega

/-- The same with its first mark. -/
theorem string?_append (hw : NewLine w) (hcs : cs ≠ []) : string? (cs ++ w) = string? cs := by
  obtain ⟨x, xs, rfl⟩ := List.exists_cons_of_ne_nil hcs
  rw [List.cons_append, string?, string?, stringBody?_append hw]

theorem string?_le (h : string? cs = some n) : n ≤ cs.length := by
  obtain ⟨xs, m, rfl, hm, rfl⟩ := exists_of_string? h
  have := stringBody?_le hm
  simp only [List.length_cons]
  omega

/-- A text that is spelled out is there or not, whatever comes after it. -/
theorem isPrefixOf_append_of_head {text : List Char} (hw : ∀ x ∈ w.head?, x ∉ text)
    (cs : List Char) : text.isPrefixOf (cs ++ w) = text.isPrefixOf cs := by
  induction text generalizing cs with
  | nil => rfl
  | cons x text ih =>
      cases cs with
      | nil =>
          cases w with
          | nil => rfl
          | cons y v =>
              have hx : x ≠ y := fun heq => hw y rfl (heq ▸ List.mem_cons_self)
              simp [List.isPrefixOf, hx]
      | cons y cs =>
          have hih := ih (fun z hz hmem => hw z hz (List.mem_cons_of_mem x hmem)) cs
          simp [List.isPrefixOf, hih]

/-- So it is at the end of a line. -/
theorem isPrefixOf_append (hw : NewLine w) {text : List Char} (htext : '\n' ∉ text)
    (cs : List Char) : text.isPrefixOf (cs ++ w) = text.isPrefixOf cs := by
  refine isPrefixOf_append_of_head (fun x hx => ?_) cs
  rcases hw with rfl | ⟨v, rfl⟩
  · cases hx
  · cases hx
    exact htext

/-- A name that ends with the text ends at a boundary. -/
theorem endsName_append (hw : Boundary w) (cs : List Char) : endsName (cs ++ w) = endsName cs := by
  cases cs with
  | nil =>
      rcases hw.head (p := (Text.isNameChar ·)) (forall_of_all (by decide)) with
        rfl | ⟨x, v, rfl, hx⟩
      · rfl
      · simp [endsName, hx]
  | cons x xs => rfl

/-- So does a keyword. -/
theorem startsWord_append (hw : Boundary w) (cs : List Char) :
    Grammar.startsWord (cs ++ w) = Grammar.startsWord cs := by
  cases cs with
  | nil =>
      rcases hw.head (p := (Text.isKeywordChar ·)) (forall_of_all (by decide)) with
        rfl | ⟨x, v, rfl, hx⟩
      · rfl
      · simp [Grammar.startsWord, hx]
  | cons x xs => rfl

/-- A word that has no boundary in it is there or not, whatever comes after it. -/
theorem word?_append (hw : Boundary w) {word : String}
    (hword : ∀ x ∈ ['\n', ' ', '/'], x ∉ word.toList) (cs : List Char) :
    word? word (cs ++ w) = word? word cs := by
  simp only [word?, isPrefixOf_append_of_head (fun x hx => hword x (hw x hx))]
  by_cases h : word.toList.isPrefixOf cs
  · have hle := (List.isPrefixOf_iff_prefix.mp h).length_le
    rw [drop_append hle, endsName_append hw]
  · simp [h]

/-- What a word starts with. -/
theorem exists_of_word? {word : String} (h : word? word cs = some n) :
    ∃ ds, cs = word.toList ++ ds ∧ n = word.length ∧ endsName ds := by
  simp only [word?] at h
  split at h
  · rename_i hcond
    rw [Bool.and_eq_true] at hcond
    obtain ⟨ds, rfl⟩ := List.isPrefixOf_iff_prefix.mp hcond.1
    cases h
    rw [List.drop_left] at hcond
    exact ⟨ds, rfl, String.length_toList, hcond.2⟩
  · cases h

theorem word?_le {word : String} (h : word? word cs = some n) : n ≤ cs.length := by
  obtain ⟨ds, rfl, rfl, -⟩ := exists_of_word? h
  rw [List.length_append, String.length_toList]
  omega

/-- What a return that gives nothing back starts with. -/
theorem exists_of_bareReturn? (h : bareReturn? cs = some n) :
    ∃ ds, cs = "return".toList ++ ds ∧ n = 6 ∧ endsName ds ∧ endsStatement ds := by
  obtain ⟨m, hm, hends⟩ := Option.bind_eq_some_iff.mp h
  split at hends
  · rename_i hcond
    obtain ⟨ds, rfl, rfl, hname⟩ := exists_of_word? hm
    cases hends
    exact ⟨ds, rfl, rfl, hname, hcond⟩
  · cases hends

/-- A word that is not run into is there. -/
theorem wordAt_append {word : String} (hword : IsWord word) (hds : endsName ds) :
    WordAt word (word.toList ++ ds) := by
  obtain ⟨x, xs, hn, hx, hxs⟩ := hword
  have hend : ds.takeWhile Text.isNameChar = [] := by
    cases ds with
    | nil => rfl
    | cons y ys => rw [List.takeWhile_cons_of_neg (by simpa [endsName] using hds)]
  refine ⟨?_, List.prefix_append _ _⟩
  rw [← String.length_toList, hn, List.cons_append, name?, if_pos hx,
    List.takeWhile_append_of_pos hxs, hend, List.append_nil, List.length_cons, Nat.add_comm]

/-- A word that is there is not run into. -/
theorem WordAt.endsName {word : String} (h : WordAt word cs) :
    endsName (cs.drop word.length) = true := by
  obtain ⟨x, xs, rfl, hx, hlength⟩ := exists_of_name? h.size
  rw [hlength, Nat.add_comm, List.drop_succ_cons, Cursor.drop_takeWhile]
  have hhead := List.head?_dropWhile_not Text.isNameChar xs
  cases hdrop : xs.dropWhile Text.isNameChar with
  | nil => rfl
  | cons y ys =>
      rw [hdrop] at hhead
      simpa [Lexeme.endsName] using hhead

/-- What the sign of an assignment starts with. -/
theorem exists_of_assignSign? (h : assignSign? cs = some n) : ∃ ds, cs = '=' :: ds ∧ n = 1 := by
  unfold assignSign? at h
  split at h
  · cases h
  · cases h
    exact ⟨_, rfl, rfl⟩
  · cases h

/-- The sign of an assignment does not become an equality at a boundary. -/
theorem assignSign?_append (hw : Boundary w) (hcs : cs ≠ []) :
    assignSign? (cs ++ w) = assignSign? cs := by
  obtain ⟨x, xs, rfl⟩ := List.exists_cons_of_ne_nil hcs
  by_cases hx : x = '='
  · subst hx
    cases xs with
    | nil =>
        rcases hw.head (p := (· = '=')) (forall_of_all (by decide)) with rfl | ⟨x, v, rfl, hx⟩
        · rfl
        · simp [assignSign?, hx]
    | cons y ys => by_cases hy : y = '=' <;> simp [assignSign?, hy]
  · simp [assignSign?, hx]

/-- What follows a return on its line decides whether it ends. Only a text that stops in the middle
of a line end can be misjudged. -/
theorem endsStatement_append (hw : NewLine w) (cs : List Char) :
    endsStatement (cs ++ w) = endsStatement cs ∨ (Blank cs ∧ endsStatement cs = false) := by
  unfold endsStatement
  rw [List.dropWhile_append]
  generalize hp : (fun c : Char => c == ' ' || c == '\t') = p
  cases hd : cs.dropWhile p with
  | nil =>
      subst hp
      rcases hw with rfl | ⟨v, rfl⟩ <;> exact .inl rfl
  | cons x xs =>
      simp only [List.isEmpty_cons, Bool.false_eq_true, if_false, List.cons_append]
      cases xs with
      | nil =>
          by_cases hx : x = '\r'
          · subst hx
            refine .inr ⟨fun y hy => ?_, rfl⟩
            rw [← List.takeWhile_append_dropWhile (p := p) (l := cs), hd, List.mem_append] at hy
            rcases hy with hy | hy
            · have hpy := List.mem_takeWhile_imp hy
              subst hp
              exact isSpace_of_isInlineSpace y hpy
            · rw [List.mem_singleton.mp hy]
              rfl
          · left
            rcases hw with rfl | ⟨v, rfl⟩
            · rfl
            · rw [List.nil_append]
              split <;> simp_all
      | cons y ys =>
          left
          split <;> simp_all

/-- A return that is bare in one of the two texts only gives nothing back, and yet does not end. -/
theorem bareReturn?_append (hw : NewLine w) (cs : List Char) :
    bareReturn? (cs ++ w) = bareReturn? cs ∨ w ≠ [] ∧ Dangling cs := by
  by_cases hnil : w = []
  · rw [hnil, List.append_nil]
    exact .inl rfl
  unfold bareReturn?
  rw [word?_append hw.boundary (forall_of_all (by decide))]
  cases hword : word? "return" cs with
  | none => exact .inl rfl
  | some n =>
      obtain ⟨ds, rfl, rfl, hname⟩ := exists_of_word? hword
      have hdrop : ∀ es : List Char, ("return".toList ++ es).drop "return".length = es := fun es =>
        List.drop_left' String.length_toList
      simp only [Option.bind_some, List.append_assoc, hdrop]
      rcases endsStatement_append hw ds with hsame | ⟨hblank, hopen⟩
      · exact .inl (by rw [hsame])
      · refine .inr
          ⟨hnil, .nothing (wordAt_append (isWord_of_mem_keywords (by decide)) hname) ?_ ?_⟩
        · exact (hdrop ds).symm ▸ hblank
        · exact (hdrop ds).symm ▸ hopen

end Ember.Lexeme
