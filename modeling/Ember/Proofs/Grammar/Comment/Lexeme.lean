import Ember.Proofs.Grammar.Comment

/-!
# Grammar — the lexemes of a text with comments as blank space

Where a lexeme starts, a text and the same text with comments as blank space have the same lexeme.
They differ at the first comment only, and no lexeme but a string literal goes over a slash or a
blank. How far blank space is skipped is the same as well, except that comments no longer carry a
line on; but there the text does not go on with an operand.

* `Veil.boundary`, `Veil.agree`: the texts are the same up to where lexemes end.
* `Veil.string?_eq`: string literals.
* `Veil.endsStatement_eq`: what decides whether a return is bare.
* `Veil.pass`, `Veil.passInLine`: how far blank space is skipped.
-/

namespace Ember.Lexeme

open Cursor (isSpace isInlineSpace commentLength? commentsLength lineCommentLength
  blockCommentLength? Quiet)
open Grammar (isSpace_of_isInlineSpace)

variable {before cs ds u white rest s m r r' p w t : List Char} {x : Char} {xs : List Char}
  {n : Nat}

/-! ### The first comment -/

/-- The texts are the same up to a comment. -/
theorem Veil.first (h : Veil before cs ds) : ds = cs ∨
    ∃ p q q', cs = p ++ '/' :: q ∧ ds = p ++ ' ' :: q' ∧ commentLength? ('/' :: q) ≠ none := by
  have happend : ∀ {t cs ds : List Char}, (ds = cs ∨ ∃ p q q', cs = p ++ '/' :: q ∧
      ds = p ++ ' ' :: q' ∧ commentLength? ('/' :: q) ≠ none) → (t ++ ds = t ++ cs ∨
      ∃ p q q', t ++ cs = p ++ '/' :: q ∧ t ++ ds = p ++ ' ' :: q' ∧
        commentLength? ('/' :: q) ≠ none) := by
    rintro t cs ds (rfl | ⟨p, q, q', rfl, rfl, hq⟩)
    · exact .inl rfl
    · exact .inr ⟨t ++ p, q, q', by rw [List.append_assoc], by rw [List.append_assoc], hq⟩
  induction h with
  | nil => exact .inl rfl
  | @lexeme _ cs _ _ _ _ ih =>
      have hcs := happend (t := cs.take (size cs)) ih
      rwa [List.take_append_drop] at hcs
  | keep _ _ _ ih => exact happend ih
  | blank hgap hu _ _ _ =>
      obtain ⟨s, m, v, white', rfl, rfl, -, hm⟩ := hgap.split hu
      obtain ⟨y, k, rfl⟩ := exists_cons_of_commentLength? hm
      refine .inr ⟨s, y :: (k ++ (v ++ _)), _, by simp; rfl, by simp [blankChar]; rfl, ?_⟩
      rw [show '/' :: y :: (k ++ (v ++ _)) = '/' :: y :: k ++ (v ++ _) from rfl, hm]
      exact nofun

/-- Where a lexeme starts, the texts are the same up to where lexemes end. -/
theorem Veil.boundary (h : Veil before cs ds) (hcs : Settled cs) :
    ds = cs ∨ ∃ p w w', p ≠ [] ∧ cs = p ++ w ∧ ds = p ++ w' ∧ Boundary w ∧ Boundary w' := by
  rcases h.first with heq | ⟨p, q, q', rfl, rfl, hq⟩
  · exact .inl heq
  · refine .inr ⟨p, _, _, ?_, rfl, rfl, ?_, ?_⟩
    · rintro rfl
      exact hq hcs.comment
    · rintro x ⟨⟩
      decide
    · rintro x ⟨⟩
      decide

/-- What is told by the text up to where lexemes end is the same. -/
theorem Veil.agree {β : Type} {f : List Char → β} (h : Veil before cs ds) (hcs : Settled cs)
    (hf : ∀ p w, p ≠ [] → Boundary w → f (p ++ w) = f p) : f ds = f cs := by
  rcases h.boundary hcs with rfl | ⟨p, w, w', hp, rfl, rfl, hw, hw'⟩
  · rfl
  · rw [hf p w hp hw, hf p w' hp hw']

/-- A mark of one character, or a word that does not go over where lexemes end. -/
theorem isPrefixOf_boundary {text : List Char}
    (htext : text.length = 1 ∨ ∀ x ∈ ['\n', ' ', '/'], x ∉ text) (hp : p ≠ []) (hw : Boundary w) :
    text.isPrefixOf (p ++ w) = text.isPrefixOf p := by
  rcases htext with hlength | htext
  · obtain ⟨x, rfl⟩ := List.length_eq_one_iff.mp hlength
    obtain ⟨y, ys, rfl⟩ := List.exists_cons_of_ne_nil hp
    rfl
  · exact isPrefixOf_append_of_head (fun x hx => htext x (hw x hx)) p

/-- What is spelled out is there in both texts or in none. -/
theorem Veil.isPrefixOf_eq (h : Veil before cs ds) (hcs : Settled cs) {text : List Char}
    (htext : text.length = 1 ∨ ∀ x ∈ ['\n', ' ', '/'], x ∉ text) :
    text.isPrefixOf ds = text.isPrefixOf cs :=
  h.agree hcs fun _ _ hp hw => isPrefixOf_boundary htext hp hw

/-- So is an operator. -/
theorem Veil.operatorAt?_eq (h : Veil before cs ds) (hcs : Settled cs) {ops : List String}
    (hops : ∀ op ∈ ops, op.toList.length = 1 ∨ ∀ x ∈ ['\n', ' ', '/'], x ∉ op.toList) :
    Grammar.operatorAt? ops ds = Grammar.operatorAt? ops cs := by
  unfold Grammar.operatorAt?
  induction ops with
  | nil => rfl
  | cons op ops ih =>
      obtain ⟨hop, hops⟩ := List.forall_mem_cons.mp hops
      rw [List.find?_cons, List.find?_cons, h.isPrefixOf_eq hcs hop, ih hops]

/-! ### String literals -/

/-- A string literal is closed on its line. The first argument says whether the next character is
escaped. -/
def closes : Bool → List Char → Bool
  | _, [] => false
  | true, x :: xs => x != '\n' && closes false xs
  | false, x :: xs =>
    if x = Text.doubleQuote then true else x != '\n' && closes (x == '\\') xs

/-- A string literal is one if its line has a mark that closes it. -/
theorem stringBody?_isSome (cs : List Char) : (stringBody? cs).isSome = closes false cs := by
  induction cs using stringBody?.induct with
  | case1 => rfl
  | case2 cs => simp [stringBody?, closes, Text.doubleQuote]
  | case3 d cs hd ih => simp [stringBody?, closes, Text.doubleQuote, hd, ih]
  | case4 cs h => simp [stringBody?_cons (c := Text.doubleQuote) (by decide), closes]
  | case5 c cs hlast hquote hc =>
      rcases hc with rfl | rfl
      · cases cs with
        | nil => simp [stringBody?, closes, Text.doubleQuote]
        | cons d ds => exact (hlast d ds rfl rfl).elim
      · simp [stringBody?_cons (c := '\n') (by decide), closes, Text.doubleQuote]
  | case6 c cs _ hquote hc ih =>
      rw [not_or] at hc
      have hslash : (c == '\\') = false := beq_eq_false_iff_ne.mpr hc.1
      simp [stringBody?_cons hc.1, closes, hquote, hc.2, hslash, ih]

/-- What comes after some text matters only if the literal is not closed in it. -/
theorem closes_append {e : Bool} (hr : ∀ e, closes e r = false → closes e r' = false)
    (h : closes e (t ++ r) = false) : closes e (t ++ r') = false := by
  induction t generalizing e with
  | nil => exact hr e h
  | cons x t ih =>
      cases e with
      | true =>
          simp only [List.cons_append, closes, Bool.and_eq_false_iff] at h ⊢
          exact h.imp_right ih
      | false =>
          simp only [List.cons_append, closes] at h ⊢
          split at h
          · cases h
          · rw [if_neg ‹_›]
            simp only [Bool.and_eq_false_iff] at h ⊢
            exact h.imp_right ih

/-- Blank space closes no literal and escapes nothing. -/
theorem closes_blank {e : Bool} (hne : s ≠ []) (hs : Blank s)
    (h : '\n' ∈ s ∨ closes false r = false) : closes e (s ++ r) = false := by
  have hspace : ∀ x, isSpace x → x ≠ Text.doubleQuote ∧ x ≠ '\\' := by
    rintro x hx
    constructor
    · rintro rfl
      exact absurd hx (by decide)
    · rintro rfl
      exact absurd hx (by decide)
  induction s generalizing e with
  | nil => exact absurd rfl hne
  | cons x s ih =>
      obtain ⟨hx, hs⟩ := List.forall_mem_cons.mp hs
      obtain ⟨hquote, hslash⟩ := hspace x hx
      have hnext : closes e (x :: (s ++ r)) = (x != '\n' && closes false (s ++ r)) := by
        cases e with
        | true => rfl
        | false => simp [closes, hquote, beq_eq_false_iff_ne.mpr hslash]
      rw [List.cons_append, hnext]
      by_cases hnewline : x = '\n'
      · simp [hnewline]
      · have h' : '\n' ∈ s ∨ closes false r = false :=
          h.imp_left fun hmem => (List.mem_cons.mp hmem).resolve_left (Ne.symm hnewline)
        cases s with
        | nil =>
            rw [List.nil_append, h'.resolve_left List.not_mem_nil, Bool.and_false]
        | cons y s => rw [ih (List.cons_ne_nil y s) hs h', Bool.and_false]

/-- A literal that is not closed in a block comment and after it is not closed after it. -/
theorem closes_after_block {k : List Char} {e : Bool}
    (hk : blockCommentLength? (k ++ r) = some k.length) (hline : '\n' ∉ k)
    (h : closes e (k ++ r) = false) : closes false r = false := by
  induction k generalizing e with
  | nil => exact absurd (blockCommentLength?_ge hk) (by simp)
  | cons x k ih =>
      obtain ⟨hx, hline⟩ := not_or.mp fun hmem => hline (List.mem_cons.mpr hmem)
      have hnext : ∃ e, closes e (k ++ r) = false := by
        cases e with
        | true =>
            refine ⟨false, ?_⟩
            simpa [closes, Ne.symm hx] using h
        | false =>
            simp only [List.cons_append, closes] at h
            split at h
            · cases h
            · exact ⟨_, by simpa [Ne.symm hx] using h⟩
      obtain ⟨e', he'⟩ := hnext
      by_cases hclose : x = '*' ∧ (k ++ r).head? = some '/'
      · -- the comment is closed by the next two characters, so nothing is escaped after it
        obtain ⟨rfl, hhead⟩ := hclose
        cases k with
        | nil => exact absurd (blockCommentLength?_ge hk) (by simp)
        | cons y k =>
            obtain rfl : y = '/' := Option.some.inj hhead
            have hlength : 2 = k.length + 2 := Option.some.inj hk
            obtain rfl : k = [] := List.length_eq_zero_iff.mp (by omega)
            cases e' <;> simpa [closes, Text.doubleQuote] using he'
      · rw [List.cons_append, blockCommentLength?_cons (fun hx hhead => hclose ⟨hx, hhead⟩)] at hk
        obtain ⟨n, hn, hlength⟩ := Option.map_eq_some_iff.mp hk
        exact ih (hn.trans (congrArg some (Nat.succ.inj hlength))) hline he'

/-- At the end of the line there is none. -/
theorem closes_newLine (h : NewLine r) (e : Bool) : closes e r = false := by
  rcases h with rfl | ⟨v, rfl⟩ <;> cases e <;> rfl

/-- A literal that is not closed in a comment and after it is not closed after it, unless its line
ends before. -/
theorem closes_after_comment {e : Bool} (hm : commentLength? (m ++ r) = some m.length)
    (hline : '\n' ∉ m) (h : closes e (m ++ r) = false) : closes false r = false := by
  obtain ⟨k, ⟨rfl, hk⟩ | ⟨rfl, hk⟩⟩ := exists_of_commentLength? hm
  · exact closes_newLine (newLine_of_lineCommentLength hk) false
  · have hk' : closes false (k ++ r) = false := by
      cases e <;> simpa [closes, Text.doubleQuote] using h
    exact closes_after_block hk (fun hmem => hline (by simp [hmem])) hk'

/-- Nor is there one in a gap, made into blank space. -/
theorem closes_gap (hgap : Gap u white r) (hr : ∀ e, closes e r = false → closes e r' = false)
    (e : Bool) (h : closes e (u ++ r) = false) : closes e (white ++ r') = false := by
  induction hgap generalizing e with
  | nil => exact hr e h
  | @comment s m u white r hs hm _ ih =>
      rw [List.append_assoc, List.append_assoc] at h ⊢
      refine closes_append (fun e he => ?_) h
      have hblank : Blank (m.map blankChar) := fun x hx => by
        obtain ⟨y, -, rfl⟩ := List.mem_map.mp hx
        exact isSpace_blankChar y
      obtain ⟨y, k, hmk⟩ := exists_cons_of_commentLength? hm
      -- a comment with a line end keeps it as blank space, and the literal is over there
      refine closes_blank (by simp [hmk]) hblank ?_
      by_cases hline : '\n' ∈ m
      · exact .inl (List.mem_map.mpr ⟨_, hline, rfl⟩)
      · exact .inr (ih hr false (closes_after_comment hm hline he))

/-- A quotation mark that opens no literal opens none with comments as blank space. -/
theorem Veil.closes_eq_false (h : Veil before cs ds) (e : Bool) (hcs : closes e cs = false) :
    closes e ds = false := by
  induction h generalizing e with
  | nil => exact hcs
  | @lexeme _ cs ds _ _ _ ih =>
      rw [← List.take_append_drop (size cs) cs] at hcs
      exact closes_append ih hcs
  | keep _ _ _ ih => exact closes_append ih hcs
  | blank hgap _ _ _ ih => exact closes_gap hgap ih e hcs

/-- A string literal does not depend on what comes after it. -/
theorem stringBody?_take (h : stringBody? cs = some n) (ys : List Char) :
    stringBody? (cs.take n ++ ys) = some n := by
  induction cs using stringBody?.induct generalizing n with
  | case1 => cases h
  | case2 cs => simp [stringBody?] at h
  | case3 d cs hd ih =>
      rw [stringBody?, if_neg hd] at h
      obtain ⟨k, hk, rfl⟩ := Option.map_eq_some_iff.mp h
      simp [stringBody?, hd, ih hk]
  | case4 cs _ =>
      rw [stringBody?_cons (by decide), if_pos rfl] at h
      cases h
      simp [stringBody?_cons (c := Text.doubleQuote) (by decide)]
  | case5 c cs hlast hquote hc =>
      rcases hc with rfl | rfl
      · cases cs with
        | nil => simp [stringBody?, Text.doubleQuote] at h
        | cons d ds => exact (hlast d ds rfl rfl).elim
      · simp [stringBody?_cons (c := '\n') (by decide), Text.doubleQuote] at h
  | case6 c cs _ hquote hc ih =>
      rw [not_or] at hc
      rw [stringBody?_cons hc.1, if_neg hquote, if_neg hc.2] at h
      obtain ⟨k, hk, rfl⟩ := Option.map_eq_some_iff.mp h
      rw [List.take_succ_cons, List.cons_append, stringBody?_cons hc.1, if_neg hquote, if_neg hc.2,
        ih hk]
      rfl

/-- String literals are the same. -/
theorem Veil.string?_eq (h : Veil before cs ds) (hcs : Settled cs) : string? ds = string? cs := by
  cases cs with
  | nil => rw [h.eq_nil]
  | cons x xs =>
      obtain ⟨ds', rfl, h'⟩ := h.lexeme_of_quiet hcs.quiet (List.cons_ne_nil x xs)
      by_cases hx : x = Text.doubleQuote
      · subst hx
        cases hn : string? (Text.doubleQuote :: xs) with
        | some n =>
            obtain ⟨ys, k, heq, hk, rfl⟩ := exists_of_string? hn
            cases heq
            rw [size_of_string hn, List.take_succ_cons, List.cons_append, string?, if_pos rfl,
              stringBody?_take hk]
            rfl
        | none =>
            have hsize : size (Text.doubleQuote :: xs) = 1 := by
              rw [size, number?_eq_none (by decide), name?_eq_none (by decide), hn]
              rfl
            rw [hsize] at h' ⊢
            have hclosed : closes false xs = false := by
              rw [string?, if_pos rfl, Option.map_eq_none_iff] at hn
              rw [← stringBody?_isSome, hn]
              rfl
            have hopen := h'.closes_eq_false false hclosed
            rw [← stringBody?_isSome, Option.isSome_eq_false_iff,
              Option.isNone_iff_eq_none] at hopen
            change string? (Text.doubleQuote :: ds') = none
            rw [string?, if_pos rfl, hopen]
            rfl
      · obtain ⟨k, hk⟩ := Nat.exists_eq_add_one.mpr (size_pos (x :: xs))
        rw [hk, List.take_succ_cons, List.cons_append, string?_eq_none hx, string?_eq_none hx]

/-! ### Returns -/

/-- Whether a statement ends is seen after blank space. -/
theorem endsStatement_dropWhile (cs : List Char) :
    endsStatement (cs.dropWhile isInlineSpace) = endsStatement cs := by
  unfold endsStatement
  rw [show (fun c : Char => c == ' ' || c == '\t') = isInlineSpace from rfl,
    Grammar.dropWhile_dropWhile]

/-- Two characters decide whether a statement ends. -/
theorem endsStatement_congr {ys : List Char} (hx : isInlineSpace x = false)
    (h : ys.head? = xs.head?) : endsStatement (x :: ys) = endsStatement (x :: xs) := by
  unfold endsStatement
  rw [show (fun c : Char => c == ' ' || c == '\t') = isInlineSpace from rfl,
    List.dropWhile_cons_of_neg (by simp [hx]), List.dropWhile_cons_of_neg (by simp [hx])]
  cases xs with
  | nil =>
      cases ys with
      | nil => rfl
      | cons y ys => cases h
  | cons z zs =>
      cases ys with
      | nil => cases h
      | cons y ys =>
          cases h
          split <;> simp_all

/-- Only at two characters the next one matters. -/
theorem endsStatement_cons (hx : isInlineSpace x = false) (hreturn : x ≠ '\r') (hslash : x ≠ '/')
    (xs : List Char) : endsStatement (x :: xs) = endsStatement [x] := by
  unfold endsStatement
  rw [show (fun c : Char => c == ' ' || c == '\t') = isInlineSpace from rfl,
    List.dropWhile_cons_of_neg (by simp [hx]), List.dropWhile_cons_of_neg (by simp [hx])]
  split <;> simp_all

theorem Veil.endsStatement_of_settled (h : Veil before r r') (hr : Settled r) :
    endsStatement r' = endsStatement r := by
  cases r with
  | nil => rw [h.eq_nil]
  | cons x xs =>
      have hspace := hr.not_isSpace
      have hinline : isInlineSpace x = false := by
        by_contra hx
        rw [isSpace_of_isInlineSpace x (by simpa using hx)] at hspace
        cases hspace
      have hreturn : x ≠ '\r' := by
        rintro rfl
        cases hspace
      have hhead := h.head?_of_quiet hr.quiet
      cases r' with
      | nil => cases hhead
      | cons y ys =>
          cases hhead
          by_cases hslash : x = '/'
          · subst hslash
            obtain ⟨ds, heq, h'⟩ := h.mark_of_quiet hr.quiet (by decide)
            cases heq
            refine endsStatement_congr hinline ?_
            -- a comment right after the slash would make it a comment
            rcases h'.first with rfl | ⟨p, q, q', rfl, rfl, -⟩
            · rfl
            · cases p with
              | nil => cases hr.comment
              | cons z p => rfl
          · rw [endsStatement_cons hinline hreturn hslash,
              endsStatement_cons hinline hreturn hslash xs]

/-- After blank space. -/
theorem Veil.endsStatement_blank (h : Veil before r r') (hr : Settled r) (s : List Char) :
    endsStatement (s ++ r') = endsStatement (s ++ r) := by
  have hr' := h.settled hr
  rw [← endsStatement_dropWhile,
    dropWhile_append_of_head (hr'.not_head isSpace_of_isInlineSpace),
    ← endsStatement_dropWhile (s ++ r),
    dropWhile_append_of_head (hr.not_head isSpace_of_isInlineSpace)]
  cases hs : s.dropWhile isInlineSpace with
  | nil => exact h.endsStatement_of_settled hr
  | cons x t =>
      have hx : isInlineSpace x = false := by
        have hhead := List.head?_dropWhile_not isInlineSpace s
        simpa [hs] using hhead
      refine endsStatement_congr hx ?_
      cases t with
      | nil => exact h.head?_of_quiet hr.quiet
      | cons y t => rfl

/-- After comments. -/
theorem endsStatement_gap (hgap : Gap u white r) (hu : u ≠ []) (r' : List Char) :
    endsStatement (u ++ r') = endsStatement (u ++ r) := by
  obtain ⟨s, m, v, -, rfl, -, hs, hm⟩ := hgap.split hu
  obtain ⟨y, k, rfl⟩ := exists_cons_of_commentLength? hm
  have hdrop : ∀ ds, (s ++ '/' :: y :: k ++ v ++ ds).dropWhile isInlineSpace
      = s.dropWhile isInlineSpace ++ '/' :: y :: (k ++ v ++ ds) := by
    intro ds
    rw [← dropWhile_append_of_head (by simp [isInlineSpace])]
    simp
  rw [← endsStatement_dropWhile, hdrop, ← endsStatement_dropWhile (_ ++ r), hdrop]
  cases hs : s.dropWhile isInlineSpace with
  | nil => exact endsStatement_congr (by decide) rfl
  | cons x t =>
      have hx : isInlineSpace x = false := by
        have hhead := List.head?_dropWhile_not isInlineSpace s
        simpa [hs] using hhead
      refine endsStatement_congr hx ?_
      cases t <;> rfl

/-- What decides whether a return is bare is the same. -/
theorem Veil.endsStatement_eq (h : Veil "return".toList cs ds) :
    endsStatement ds = endsStatement cs := by
  obtain ⟨u, white, s, r, r', b, rfl, hgap, hs, hr, h', ⟨rfl, -⟩ | ⟨rfl, hfree⟩⟩ := h.parts
  · by_cases hu : u = []
    · subst hu
      exact h'.endsStatement_blank hr s
    · exact endsStatement_gap hgap hu _
  · have hwhiten : whiten (u ++ (s ++ r)) (u ++ (s ++ r)) = white := hgap.whiten_eq (Nat.le_refl _)
    have hsame : endsStatement (u ++ (s ++ r)) = endsStatement (white ++ (s ++ r)) := by
      simp only [decisive, hwhiten, hgap.length_eq, List.drop_left, Bool.or_eq_false_iff] at hfree
      simpa using hfree.1
    rw [hsame, ← List.append_assoc, ← List.append_assoc]
    exact h'.endsStatement_blank hr (white ++ s)

/-! ### Skipping -/

/-- How many characters are skipped: comments, and blank space of a class. -/
def passLength (p : Char → Bool) (cs : List Char) : Nat :=
  commentsLength cs cs + ((cs.drop (commentsLength cs cs)).takeWhile p).length

/-- What is skipped is a gap and blank space. -/
theorem Gap.pass {p : Char → Bool} (h : Gap u white (s ++ r)) (hr : Settled r)
    (hp : ∀ x, p x → isSpace x) : passLength p (u ++ (s ++ r)) = u.length + (s.takeWhile p).length ∧
      (u ++ (s ++ r)).drop (passLength p (u ++ (s ++ r))) = s.dropWhile p ++ r := by
  have htake : (s ++ r).takeWhile p = s.takeWhile p := takeWhile_append_of_head (hr.not_head hp) s
  have hlength : passLength p (u ++ (s ++ r)) = u.length + (s.takeWhile p).length := by
    rw [passLength, h.commentsLength_eq (Nat.le_refl _), List.drop_left, htake]
  refine ⟨hlength, ?_⟩
  rw [hlength, ← List.drop_drop, List.drop_left, ← htake, Cursor.drop_takeWhile,
    dropWhile_append_of_head (hr.not_head hp)]

theorem Blank.takeWhile (h : Blank s) : s.takeWhile isSpace = s ∧ s.dropWhile isSpace = [] :=
  ⟨List.takeWhile_eq_self_iff.mpr h, List.dropWhile_eq_nil_iff.mpr h⟩

theorem gap_of_blank (hs : Blank s) (hr : Settled r) : Gap [] [] (s ++ r) := by
  refine .nil ?_
  rw [Quiet, List.dropWhile_append_of_pos hs]
  exact hr.quiet

/-- Comments and blank space are skipped up to the same place. -/
theorem Veil.pass (h : Veil before cs ds) :
    passLength isSpace ds = passLength isSpace cs ∧ Settled (cs.drop (passLength isSpace cs)) ∧
      ∃ b, Veil b (cs.drop (passLength isSpace cs)) (ds.drop (passLength isSpace cs)) := by
  obtain ⟨u, white, s, r, r', b, rfl, hgap, hs, hr, h', hds⟩ := h.parts
  have hr' := h'.settled hr
  obtain ⟨hlength, hdrop⟩ := hgap.pass hr (fun _ hx => hx)
  have hspan := hs.takeWhile
  rw [hspan.2, List.nil_append] at hdrop
  have hboth : passLength isSpace ds = passLength isSpace (u ++ (s ++ r)) ∧
      ds.drop (passLength isSpace ds) = r' := by
    rcases hds with ⟨rfl, hgap'⟩ | ⟨rfl, -⟩
    · obtain ⟨hlength', hdrop'⟩ := hgap'.pass hr' (fun _ hx => hx)
      rw [hspan.2, List.nil_append] at hdrop'
      exact ⟨hlength'.trans hlength.symm, hdrop'⟩
    · have hblank : Blank (white ++ s) := List.forall_mem_append.mpr ⟨hgap.blank, hs⟩
      have hpass := (gap_of_blank hblank hr').pass hr' (fun _ hx => hx)
      rw [hblank.takeWhile.1, hblank.takeWhile.2, List.nil_append, List.nil_append,
        List.append_assoc] at hpass
      refine ⟨?_, hpass.2⟩
      rw [hpass.1, hlength, hspan.1, List.length_append, hgap.length_eq, List.length_nil,
        Nat.zero_add]
  rw [hdrop, ← hboth.1, hboth.2]
  exact ⟨rfl, hr, b, h'⟩

theorem continues_eq_false (hx : isSpace x) (xs : List Char) : continues (x :: xs) = false := by
  have hall : ∀ op ∈ continuations, op.toList.head?.any (fun y => !isSpace y) := by decide
  simp only [continues, Grammar.operatorAt?, Option.isSome_eq_false_iff, Option.isNone_iff_eq_none,
    List.find?_eq_none]
  intro op hop hspelled
  have hop := hall op hop
  cases hlist : op.toList with
  | nil =>
      rw [hlist] at hop
      cases hop
  | cons y ys =>
      rw [hlist] at hop hspelled
      obtain rfl : y = x := by
        rw [List.isPrefixOf, Bool.and_eq_true] at hspelled
        exact beq_iff_eq.mp hspelled.1
      simp [hx] at hop

/-- The line goes on at the next lexeme, or blank space is left on it, which does not go on with an
operand. -/
theorem continues_dropWhile (hs : Blank s) :
    s.dropWhile isInlineSpace = [] ∨ ∀ r, continues (s.dropWhile isInlineSpace ++ r) = false := by
  cases hdrop : s.dropWhile isInlineSpace with
  | nil => exact .inl rfl
  | cons x t =>
      have hx : x ∈ s := (List.dropWhile_subset isInlineSpace) (hdrop ▸ List.mem_cons_self)
      exact .inr fun r => continues_eq_false (hs x hx) (t ++ r)

/-- After an operand, comments and blank space are skipped up to the same place of the line, unless
neither of the texts goes on with the operand. -/
theorem Veil.passInLine (h : Veil before cs ds) (hbefore : endsOperand before) :
    (continues (cs.drop (passLength isInlineSpace cs)) = false ∧
      continues (ds.drop (passLength isInlineSpace ds)) = false) ∨
    (passLength isInlineSpace ds = passLength isInlineSpace cs ∧
      Settled (cs.drop (passLength isInlineSpace cs)) ∧
      ∃ b, Veil b (cs.drop (passLength isInlineSpace cs))
        (ds.drop (passLength isInlineSpace cs))) := by
  obtain ⟨u, white, s, r, r', b, rfl, hgap, hs, hr, h', hds⟩ := h.parts
  have hr' := h'.settled hr
  obtain ⟨hlength, hdrop⟩ := hgap.pass hr isSpace_of_isInlineSpace
  have hstop := continues_dropWhile hs
  rcases hds with ⟨rfl, hgap'⟩ | ⟨rfl, hfree⟩
  · obtain ⟨hlength', hdrop'⟩ := hgap'.pass hr' isSpace_of_isInlineSpace
    rcases hstop with hnil | hstop
    · refine .inr ⟨hlength'.trans hlength.symm, ?_⟩
      rw [hlength.trans hlength'.symm] at hdrop ⊢
      rw [hdrop, hdrop', hnil]
      exact ⟨hr, b, h'⟩
    · rw [hdrop, hdrop']
      exact .inl ⟨hstop r, hstop r'⟩
  · have hblank : Blank (white ++ s) := List.forall_mem_append.mpr ⟨hgap.blank, hs⟩
    obtain ⟨hlength', hdrop'⟩ := (gap_of_blank hblank hr').pass hr' isSpace_of_isInlineSpace
    rw [List.nil_append, List.append_assoc] at hlength' hdrop'
    by_cases hwhite : ∀ x ∈ white, isInlineSpace x
    · rw [List.takeWhile_append_of_pos hwhite, List.length_append, List.length_nil, Nat.zero_add,
        hgap.length_eq] at hlength'
      rw [List.dropWhile_append_of_pos hwhite] at hdrop'
      rcases hstop with hnil | hstop
      · refine .inr ⟨hlength'.trans hlength.symm, ?_⟩
        rw [hlength'.trans hlength.symm] at hdrop'
        rw [hdrop, hdrop', hnil]
        exact ⟨hr, b, h'⟩
      · rw [hdrop, hdrop']
        exact .inl ⟨hstop r, hstop r'⟩
    · -- the second text stops at the end of a line, and the first one does not go on after it
      have hopen : (white ++ s).dropWhile isInlineSpace ≠ [] := by
        rw [Ne, List.dropWhile_eq_nil_iff]
        exact fun hall => hwhite fun x hx => hall x (List.mem_append_left s hx)
      have hwhiten : whiten (u ++ (s ++ r)) (u ++ (s ++ r)) = white :=
        hgap.whiten_eq (Nat.le_refl _)
      have hfirst : continues ((s ++ r).dropWhile isInlineSpace) = false := by
        simp only [decisive, hwhiten, hgap.length_eq, List.drop_left, Bool.or_eq_false_iff,
          hbefore, Bool.true_and] at hfree
        have hall : white.all isInlineSpace = false := by
          rw [← Bool.not_eq_true, List.all_eq_true]
          exact hwhite
        simpa [hall] using hfree.2
      rw [hdrop, hdrop']
      refine .inl ⟨?_, (continues_dropWhile hblank).resolve_left hopen r'⟩
      rwa [dropWhile_append_of_head (hr.not_head isSpace_of_isInlineSpace)] at hfirst

/-! ### What is skipped -/

theorem getLast?_of_blockCommentLength? {k : List Char}
    (h : blockCommentLength? (k ++ r) = some k.length) : k.getLast? = some '/' := by
  induction k with
  | nil => exact absurd (blockCommentLength?_ge h) (by simp)
  | cons x k ih =>
      cases k with
      | nil => exact absurd (blockCommentLength?_ge h) (by simp)
      | cons y k =>
          by_cases hclose : x = '*' ∧ y = '/'
          · obtain ⟨rfl, rfl⟩ := hclose
            have hlength : 2 = k.length + 2 := Option.some.inj h
            obtain rfl : k = [] := List.length_eq_zero_iff.mp (by omega)
            rfl
          · have hfree : x = '*' → (y :: k ++ r).head? ≠ some '/' := by
              rintro rfl hhead
              exact hclose ⟨rfl, Option.some.inj hhead⟩
            rw [List.cons_append, blockCommentLength?_cons hfree] at h
            obtain ⟨n, hn, hlength⟩ := Option.map_eq_some_iff.mp h
            rw [List.getLast?_cons_cons]
            exact ih (hn.trans (congrArg some (Nat.succ.inj hlength)))

/-- Before a lexeme, the last comment is closed by a slash. -/
theorem Gap.getLast? (h : Gap u white r) (hr : Settled r) (hne : r ≠ []) :
    ∀ x ∈ u.getLast?, x = '/' := by
  induction h with
  | nil => exact nofun
  | @comment s m u white r hs hm _ ih =>
      cases u with
      | cons y u =>
          rw [List.getLast?_append_of_ne_nil _ (List.cons_ne_nil y u)]
          exact ih hr hne
      | nil =>
          obtain ⟨y, k, hmk⟩ := exists_cons_of_commentLength? hm
          rw [List.append_nil, List.getLast?_append_of_ne_nil _ (by simp [hmk])]
          obtain ⟨k, ⟨rfl, hk⟩ | ⟨rfl, hk⟩⟩ := exists_of_commentLength? hm
          · rcases newLine_of_lineCommentLength hk with rfl | ⟨v, rfl⟩
            · exact absurd rfl hne
            · exact absurd hr.not_isSpace (by decide)
          · have hlast := getLast?_of_blockCommentLength? hk
            have hk : k ≠ [] := by
              rintro rfl
              cases hlast
            intro x hx
            rw [show '/' :: '*' :: k = ['/', '*'] ++ k from rfl,
              List.getLast?_append_of_ne_nil _ hk, hlast] at hx
            exact (Option.some.inj hx).symm

/-- What is skipped before a lexeme ends with blank space or with a slash. -/
theorem last_of_pass {p : Char → Bool} (hp : ∀ x, p x → isSpace x)
    (hsettled : Settled (cs.drop (passLength p cs))) (hne : cs.drop (passLength p cs) ≠ []) :
    ∀ x ∈ (cs.take (passLength p cs)).getLast?, isSpace x ∨ x = '/' := by
  obtain ⟨u, white, rest, rfl, hgap⟩ := exists_gap cs
  have hlength : passLength p (u ++ rest) = (u ++ rest.takeWhile p).length := by
    rw [passLength, hgap.commentsLength_eq (Nat.le_refl _), List.drop_left, List.length_append]
  have hsplit : u ++ rest = u ++ rest.takeWhile p ++ rest.dropWhile p := by
    rw [List.append_assoc, List.takeWhile_append_dropWhile]
  rw [hlength, hsplit, List.drop_left] at hsettled hne
  rw [hlength, hsplit, List.take_left]
  intro x hx
  cases htake : rest.takeWhile p with
  | nil =>
      have hdrop : rest.dropWhile p = rest := by
        have happend := List.takeWhile_append_dropWhile (p := p) (l := rest)
        rwa [htake, List.nil_append] at happend
      rw [htake, List.append_nil] at hx
      rw [hdrop] at hsettled hne
      exact .inr (hgap.getLast? hsettled hne x hx)
  | cons y ys =>
      rw [List.getLast?_append_of_ne_nil _ (by simp [htake])] at hx
      exact .inl (hp x (List.mem_takeWhile_imp (List.mem_of_getLast? hx)))

end Ember.Lexeme
