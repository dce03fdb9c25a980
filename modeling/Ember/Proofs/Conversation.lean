import Ember.Repl
import Ember.Proofs.Grammar.Joined
import Ember.Proofs.Picture
import Ember.Proofs.Safety
import Ember.Proofs.Tree.Tabs

/-!
# Conversation — what a conversation survives

A conversation goes on after whatever the user enters, be it a program that fails, a text that is
not well-formed or a command that does not exist. But what is written out on demand may be more than
the host can take, and nobody handles that: a listing of a text with an integer literal of too many
digits, a listing of trees or nodes that are nested too deeply for the stack, and a list of bindings
if the value of one is. So a user who never enters the word that ends the conversation is asked once
more after the last line, and answered with the farewell, if and only if no such command was given.

What the conversation meets is told by structure alone: how high trees and nodes are, and how deep
arrays are nested in the picture of a value. Every value that a session has bound has a picture,
since the session stays safe.

* `Repl.completed`: the inputs that a row of lines completes.
* `Repl.encounters`: these inputs, each with the session that it is put to.
* `Repl.Unlistable`, `Repl.Breaks`: an input that the conversation does not survive.
* `Repl.respond_cases`: one complete input.
* `Repl.readsAll_iff`: a whole conversation.
* `parseProgram_hugeInteger`: what the parser makes of an integer literal of too many digits.
-/

namespace Ember.Repl

open Relation (ReflTransGen)

variable {s : Session} {r : Repl} {code command source log : String} {lines : List String}
  {texts : List (Except Crash String)}

/-- The inputs that lines complete, one after the other, when some lines have been collected
already. -/
def completed (buffer : List String) : List String → List String
  | [] => []
  | line :: lines =>
    let code := String.intercalate "\n" (buffer ++ [line])
    if hasOpenBrackets code then completed (buffer ++ [line]) lines else code :: completed [] lines

/-- The inputs that lines complete, each with the session that it is put to, as long as the
conversation lasts. -/
def encounters (s : Session) (buffer : List String) : List String → List (Session × String)
  | [] => []
  | line :: lines =>
    let code := String.intercalate "\n" (buffer ++ [line])
    if hasOpenBrackets code then encounters s (buffer ++ [line]) lines
    else (s, code) :: match (respond s code).next with
      | .more r => encounters r.session r.buffer lines
      | _ => []

/-- The commands that list what a text is read as. -/
def listingCommands : List String := [":parse", ":analyze"]

/-- A text that a host does not list: the parser meets an integer literal of too many digits, or a
tree is nested too deeply to be listed or to be analyzed up to the first fault, or its node is. -/
inductive Unlistable (host : Host) (command source : String) : Prop where
  | number {digits : Nat} (h : parseProgram "<repl>" source = .error (.hugeInteger digits)) :
      Unlistable host command source
  | tree {ts : List Tree} {t : Tree} (hcommand : command = ":parse")
      (hts : parseProgram "<repl>" source = .ok ts) (ht : t ∈ ts)
      (hdeep : host.listingLimit < t.height) : Unlistable host command source
  | analysis {ts : List Tree} (hcommand : command = ":analyze")
      (hts : parseProgram "<repl>" source = .ok ts)
      (hdeep : host.analysisLimit < Analysis.depthAll false ts) : Unlistable host command source
  | node {ts : List Tree} {ns : List Node} {n : Node} (hcommand : command = ":analyze")
      (hts : parseProgram "<repl>" source = .ok ts) (hns : analyzeTrees ts = .ok ns) (hn : n ∈ ns)
      (hdeep : host.listingLimit < n.height) : Unlistable host command source

/-- A complete input that a session does not survive: it asks to list a text that the host does not
list, or for the bindings when the picture of one of their values is too deep for the host. -/
inductive Breaks (s : Session) (code : String) : Prop where
  | listing {command source : String} (hcommand : command ∈ listingCommands)
      (hcode : Text.strip code = command ++ " " ++ source)
      (h : Unlistable s.settings.host command source) : Breaks s code
  | environment {b : Binding} {p : Picture} (hcode : Text.strip code = ":env")
      (hb : b ∈ s.bindings) (hp : s.machine.store.Draws ∅ true b.value p)
      (hdeep : s.settings.host.idleDisplayLimit < p.depth) : Breaks s code

/-- A conversation took every line and ended when there were no more, with the farewell. -/
structure Transcript.ReadsAll (t : Transcript) (count : Nat) : Prop where
  unread : t.unread = 0
  broken : t.broken = none
  steps : t.steps.length = count + 1
  farewell : ∃ prompt, t.steps.getLast? = some (prompt, Ember.farewell)

/-! ### What is written out -/

/-- Everything is written out if and only if every text could be had. -/
theorem writeAll_eq_none : (writeAll texts).2 = none ↔ ∀ t ∈ texts, ∃ text, t = .ok text := by
  induction texts with
  | nil => simp [writeAll]
  | cons t ts ih =>
      cases t with
      | error crash => simp [writeAll]
      | ok text => simpa [writeAll] using ih

/-- What is written out leaves the session as it is, or it is over. -/
theorem write_cases (s : Session) (log : String) (texts : List (Except Crash String)) :
    (write s log texts).next = .more ⟨s, []⟩ ∧ (∀ t ∈ texts, ∃ text, t = .ok text) ∨
      (∃ crash, (write s log texts).next = .broken crash) ∧
        ¬ ∀ t ∈ texts, ∃ text, t = .ok text := by
  rw [← writeAll_eq_none]
  cases hwritten : writeAll texts with
  | mk out crash =>
      simp only [write, hwritten]
      cases crash with
      | none => exact .inl ⟨rfl, rfl⟩
      | some crash => exact .inr ⟨⟨crash, rfl⟩, nofun⟩

/-- Listings are written out if what is listed is not too high. -/
theorem listWithin_ok {α : Type} {host : Host} {height : α → Nat} {listing : α → String}
    {xs : List α} :
    (∀ t ∈ xs.map fun x => listWithin host (height x) (listing x), ∃ text, t = .ok text) ↔
      ∀ x ∈ xs, height x ≤ host.listingLimit := by
  have hone : ∀ x, (∃ text, listWithin host (height x) (listing x) = .ok text) ↔
      height x ≤ host.listingLimit := by
    intro x
    unfold listWithin
    split <;> simp [*]
  simp only [List.forall_mem_map, hone]

/-- A binding is written out if its value can be shown. -/
theorem showBinding_ok {host : Host} {store : Store} {b : Binding} :
    (∃ text, showBinding host store b = .ok text) ↔ store.Shows host.idleDisplayLimit b.value := by
  unfold showBinding Store.Shows
  split <;> simp [*]

/-- Every sound value of a safe store has a picture. -/
theorem exists_picture {store : Store} {v : Value} (hs : store.Safe) (hv : v.Sound store) :
    ∃ p, store.Draws ∅ true v p := by
  have hsound : ∀ w, ReflTransGen store.Holds v w → w.Sound store := by
    intro w hw
    induction hw with
    | refl => exact hv
    | tail _ hholds ih =>
        cases hholds with
        | element hmem => exact Discipline.safety.good_element hs ih (Array.mem_toList_iff.mp hmem)
  obtain ⟨p, hp, -⟩ := Store.exists_draws (fun w hw => (hsound w hw).1)
    (fun a => Store.has_of_reaches hs.resolves hv.2) true ∅
  exact ⟨p, hp⟩

/-- The bindings of a safe session are written out if no picture of theirs is too deep. -/
theorem showEnvironment_ok (hs : s.Safe) :
    (∀ t ∈ showEnvironment s, ∃ text, t = .ok text) ↔
      ∀ b ∈ s.bindings, ∀ p, s.machine.store.Draws ∅ true b.value p →
        p.depth ≤ s.settings.host.idleDisplayLimit := by
  have hshown : (∀ t ∈ showEnvironment s, ∃ text, t = .ok text) ↔
      ∀ b ∈ s.bindings, s.machine.store.Shows s.settings.host.idleDisplayLimit b.value := by
    unfold showEnvironment
    split
    · simp [*]
    · simp [*, showBinding_ok]
  rw [hshown]
  refine forall₂_congr fun b hb => ?_
  obtain ⟨p, hp⟩ := exists_picture hs.store (hs.sound hb)
  exact ⟨fun h q hq => hq.shows_iff.mp h, fun h => hp.shows_iff.mpr (h p hp)⟩

/-! ### One input -/

theorem startsWith_iff {t start : String} :
    startsWith t start = true ↔ ∃ rest, t = start ++ rest := by
  rw [startsWith, List.isPrefixOf_iff_prefix]
  constructor
  · rintro ⟨rest, h⟩
    refine ⟨String.ofList rest, String.toList_inj.mp ?_⟩
    rw [String.toList_append, String.toList_ofList, h]
  · rintro ⟨rest, rfl⟩
    exact ⟨rest.toList, String.toList_append.symm⟩

/-- An input is taken for a listing if it is one of the commands and a text. -/
theorem listing_iff {t : String} :
    (startsWith t ":parse " || startsWith t ":analyze ") = true ↔
      ∃ command ∈ listingCommands, ∃ source, t = command ++ " " ++ source := by
  simp only [Bool.or_eq_true, startsWith_iff, listingCommands, List.mem_cons, List.not_mem_nil,
    or_false, exists_eq_or_imp, exists_eq_left]
  rfl

/-- A listing is none of the other inputs. -/
theorem listing_ne (hcommand : command ∈ listingCommands)
    (h : Text.strip code = command ++ " " ++ source) :
    ∀ other ∈ ["", "exit", ":help", ":env"], Text.strip code ≠ other := by
  have hlisting := listing_iff.mpr ⟨command, hcommand, source, h⟩
  have hall : ∀ other ∈ ["", "exit", ":help", ":env"],
      (startsWith other ":parse " || startsWith other ":analyze ") = false := by decide
  intro other hother heq
  rw [heq, hall other hother] at hlisting
  cases hlisting

theorem respond_listing (hcommand : command ∈ listingCommands)
    (h : Text.strip code = command ++ " " ++ source) :
    respond s code = listingCommand s command source := by
  have hlisting : (startsWith (Text.strip code) ":parse " ||
      startsWith (Text.strip code) ":analyze ") = true :=
    listing_iff.mpr ⟨command, hcommand, source, h⟩
  have hothers := listing_ne hcommand h
  have hsplit : (Text.strip code).toList = command.toList ++ ' ' :: source.toList := by
    rw [h, String.toList_append, String.toList_append, List.append_assoc]
    rfl
  have hword : ∀ command ∈ listingCommands, ∀ x ∈ command.toList, decide (x ≠ ' ') = true := by
    simp [listingCommands]
  have htake : (Text.strip code).toList.takeWhile (· ≠ ' ') = command.toList := by
    rw [hsplit, List.takeWhile_append_of_pos (hword command hcommand)]
    simp
  have hdrop : (Text.strip code).toList.drop (command.toList.length + 1) = source.toList := by
    rw [hsplit, ← List.drop_drop, List.drop_left]
    rfl
  rw [respond, if_neg (hothers _ (by decide)), if_neg (hothers _ (by decide)),
    if_neg (hothers _ (by decide)), if_neg (hothers _ (by decide)), if_pos hlisting]
  simp only [htake, hdrop, String.ofList_toList]

theorem respond_environment (h : Text.strip code = ":env") :
    respond s code = write s "" (showEnvironment s) := by
  rw [respond, h]
  rfl

/-- What writes nothing out is replied to, whatever comes of it. -/
theorem respond_proceeds (hs : s.Safe) (hexit : Text.strip code ≠ "exit")
    (henv : Text.strip code ≠ ":env")
    (h : ¬ ∃ command ∈ listingCommands, ∃ source, Text.strip code = command ++ " " ++ source) :
    ∃ s' : Session, s'.Safe ∧ (respond s code).next = .more ⟨s', []⟩ := by
  rw [← listing_iff] at h
  rw [respond, if_neg hexit, if_neg henv, if_neg h]
  split
  · exact ⟨s, hs, rfl⟩
  · split
    · exact ⟨s, hs, rfl⟩
    · split
      · exact ⟨s, hs, rfl⟩
      · exact ⟨_, hs.run "<repl>" code, rfl⟩

/-- The command that shows trees breaks if one of them is too high. -/
theorem listTrees_cases (s : Session) {ts : List Tree}
    (hts : parseProgram "<repl>" source = .ok ts) :
    (listingCommand s ":parse" source).next = .more ⟨s, []⟩ ∧
        ¬ Unlistable s.settings.host ":parse" source ∨
      (∃ crash, (listingCommand s ":parse" source).next = .broken crash) ∧
        Unlistable s.settings.host ":parse" source := by
  have hreply : listingCommand s ":parse" source = write s
      (debugLine s.settings.debug (parseLine "<repl>" ts.length))
      (ts.map (Tree.listed s.settings.host)) := by
    rw [listingCommand, hts]
    exact if_pos rfl
  rw [hreply]
  refine (write_cases ..).imp (And.imp_right fun hall => ?_) (And.imp_right fun hall => ?_)
  · have hlow := listWithin_ok.mp hall
    rintro (h | ⟨-, h, ht, hdeep⟩ | ⟨hcommand, -⟩ | ⟨hcommand, -⟩)
    · cases hts.symm.trans h
    · cases hts.symm.trans h
      exact absurd (hlow _ ht) (Nat.not_le.mpr hdeep)
    · exact absurd hcommand (by decide)
    · exact absurd hcommand (by decide)
  · have hhigh := mt listWithin_ok.mpr hall
    push Not at hhigh
    obtain ⟨t, ht, hdeep⟩ := hhigh
    exact .tree rfl hts ht hdeep

/-- The command that shows nodes breaks if the analysis goes too deep, or makes a node that is too
high. -/
theorem listNodes_cases (s : Session) {ts : List Tree}
    (hts : parseProgram "<repl>" source = .ok ts) :
    (listingCommand s ":analyze" source).next = .more ⟨s, []⟩ ∧
        ¬ Unlistable s.settings.host ":analyze" source ∨
      (∃ crash, (listingCommand s ":analyze" source).next = .broken crash) ∧
        Unlistable s.settings.host ":analyze" source := by
  simp only [listingCommand, hts, analyzeWithin]
  rw [if_neg (by decide : ":analyze" ≠ ":parse")]
  by_cases hdepth : Analysis.depthAll false ts ≤ s.settings.host.analysisLimit
  · rw [if_pos hdepth]
    cases hns : analyzeTrees ts with
    | error e =>
        refine .inl ⟨rfl, ?_⟩
        rintro (h | ⟨hcommand, -⟩ | ⟨-, h, hdeep⟩ | ⟨-, h, hns', -⟩)
        · cases hts.symm.trans h
        · exact absurd hcommand (by decide)
        · cases hts.symm.trans h
          exact absurd hdepth (Nat.not_le.mpr hdeep)
        · cases hts.symm.trans h
          cases hns.symm.trans hns'
    | ok ns =>
        refine (write_cases ..).imp (And.imp_right fun hall => ?_) (And.imp_right fun hall => ?_)
        · have hlow := listWithin_ok.mp hall
          rintro (h | ⟨hcommand, -⟩ | ⟨-, h, hdeep⟩ | ⟨-, h, hns', hn, hdeep⟩)
          · cases hts.symm.trans h
          · exact absurd hcommand (by decide)
          · cases hts.symm.trans h
            exact absurd hdepth (Nat.not_le.mpr hdeep)
          · cases hts.symm.trans h
            cases hns.symm.trans hns'
            exact absurd (hlow _ hn) (Nat.not_le.mpr hdeep)
        · have hhigh := mt listWithin_ok.mpr hall
          push Not at hhigh
          obtain ⟨n, hn, hdeep⟩ := hhigh
          exact .node rfl hts hns hn hdeep
  · rw [if_neg hdepth]
    exact .inr ⟨⟨_, rfl⟩, .analysis rfl hts (Nat.not_le.mp hdepth)⟩

/-- **A text that the host lists is listed**, and with another one it is over. -/
theorem listingCommand_cases (s : Session) (hcommand : command ∈ listingCommands)
    (source : String) :
    (listingCommand s command source).next = .more ⟨s, []⟩ ∧
        ¬ Unlistable s.settings.host command source ∨
      (∃ crash, (listingCommand s command source).next = .broken crash) ∧
        Unlistable s.settings.host command source := by
  cases hts : parseProgram "<repl>" source with
  | error e =>
      unfold listingCommand
      rw [hts]
      cases e with
      | error e =>
          refine .inl ⟨rfl, ?_⟩
          rintro (h | ⟨-, h, -⟩ | ⟨-, h, -⟩ | ⟨-, h, -⟩) <;> cases hts.symm.trans h
      | hugeInteger digits => exact .inr ⟨⟨_, rfl⟩, .number hts⟩
  | ok ts =>
      simp only [listingCommands, List.mem_cons, List.not_mem_nil, or_false] at hcommand
      rcases hcommand with rfl | rfl
      · exact listTrees_cases s hts
      · exact listNodes_cases s hts

/-- **A complete input breaks the conversation, or the conversation goes on.** -/
theorem respond_cases (hs : s.Safe) (hexit : Text.strip code ≠ "exit") :
    (∃ s' : Session, s'.Safe ∧ (respond s code).next = .more ⟨s', []⟩) ∧ ¬ Breaks s code ∨
      (∃ crash, (respond s code).next = .broken crash) ∧ Breaks s code := by
  by_cases hlisting : ∃ command ∈ listingCommands, ∃ source,
      Text.strip code = command ++ " " ++ source
  · obtain ⟨command, hcommand, source, hcode⟩ := hlisting
    rcases listingCommand_cases s hcommand source with ⟨hnext, hlists⟩ | ⟨hnext, hbreaks⟩
    · refine .inl ⟨⟨s, hs, respond_listing hcommand hcode ▸ hnext⟩, ?_⟩
      rintro (⟨hcommand', hcode', h⟩ | ⟨henv, -⟩)
      · -- the same input may be read as another command only if that gets the same reply
        rcases listingCommand_cases s hcommand' _ with ⟨-, hlists'⟩ | ⟨⟨crash, hcrash⟩, -⟩
        · exact hlists' h
        · rw [← respond_listing hcommand' hcode', respond_listing hcommand hcode, hnext] at hcrash
          cases hcrash
      · exact listing_ne hcommand hcode ":env" (by decide) henv
    · exact .inr ⟨respond_listing hcommand hcode ▸ hnext, .listing hcommand hcode hbreaks⟩
  · by_cases henv : Text.strip code = ":env"
    · rw [respond_environment henv]
      refine (write_cases ..).imp (fun h => ⟨⟨s, hs, h.1⟩, ?_⟩) (And.imp_right fun hall => ?_)
      · rintro (⟨hcommand, hcode, -⟩ | ⟨-, hb, hp, hdeep⟩)
        · exact hlisting ⟨_, hcommand, _, hcode⟩
        · exact absurd ((showEnvironment_ok hs).mp h.2 _ hb _ hp) (Nat.not_le.mpr hdeep)
      · have hhigh := mt (showEnvironment_ok hs).mpr hall
        push Not at hhigh
        obtain ⟨b, hb, p, hp, hdeep⟩ := hhigh
        exact .environment henv hb hp hdeep
    · refine .inl ⟨respond_proceeds hs hexit henv hlisting, ?_⟩
      rintro (⟨hcommand, hcode, -⟩ | ⟨henv', -⟩)
      · exact hlisting ⟨_, hcommand, _, hcode⟩
      · exact henv henv'

/-- The session stays safe as long as the conversation goes on. -/
theorem respond_safe (hs : s.Safe) (h : (respond s code).next = .more r) : r.session.Safe := by
  by_cases hword : Text.strip code = "exit"
  · rw [respond, hword] at h
    cases h
  · rcases respond_cases hs hword with ⟨⟨s', hs', hnext⟩, -⟩ | ⟨⟨crash, hnext⟩, -⟩
    · rw [hnext] at h
      cases h
      exact hs'
    · rw [hnext] at h
      cases h

/-! ### A whole conversation -/

/-- **Every input is put to a safe session.** -/
theorem encounters_safe (hs : s.Safe) (buffer : List String) (lines : List String) :
    ∀ p ∈ encounters s buffer lines, p.1.Safe := by
  induction lines generalizing s buffer with
  | nil => exact nofun
  | cons line lines ih =>
      rw [encounters]
      split
      · exact ih hs _
      · refine List.forall_mem_cons.mpr ⟨hs, ?_⟩
        split
        · rename_i r hnext
          exact ih (respond_safe hs hnext) r.buffer
        · exact nofun

/-- One more step in front of a transcript. -/
theorem Transcript.readsAll_after {t : Transcript} {count : Nat} {prompt : String} {reply : Reply} :
    (t.after prompt reply).ReadsAll (count + 1) ↔ t.ReadsAll count := by
  have hlast : ∀ (a : String × String) (steps : List (String × String)), steps ≠ [] →
      (a :: steps).getLast? = steps.getLast? := by
    intro a steps hne
    cases steps with
    | nil => exact absurd rfl hne
    | cons b steps => rfl
  have hne {steps : List (String × String)} (h : steps.length = count + 1) : steps ≠ [] :=
    List.ne_nil_of_length_pos (by omega)
  constructor
  · rintro ⟨hunread, hbroken, hsteps, hfarewell⟩
    have hsteps : t.steps.length = count + 1 := Nat.succ.inj hsteps
    refine ⟨hunread, hbroken, hsteps, ?_⟩
    rwa [Transcript.after, hlast _ _ (hne hsteps)] at hfarewell
  · rintro ⟨hunread, hbroken, hsteps, hfarewell⟩
    refine ⟨hunread, hbroken, congrArg (· + 1) hsteps, ?_⟩
    rwa [Transcript.after, hlast _ _ (hne hsteps)]

/-- **A conversation takes every line, unless an input breaks it**, whatever its session has come
to. -/
theorem readsAll_iff (r : Repl) (hs : r.session.Safe) (lines : List String)
    (hexit : ∀ code ∈ completed r.buffer lines, Text.strip code ≠ "exit") :
    (r.converse (lines.map .line)).ReadsAll lines.length ↔
      ∀ p ∈ encounters r.session r.buffer lines, ¬ Breaks p.1 p.2 := by
  induction lines generalizing r with
  | nil =>
      refine iff_of_true ?_ (by simp [encounters])
      exact ⟨rfl, rfl, rfl, r.prompt, rfl⟩
  | cons line lines ih =>
      rw [List.map_cons, converse, List.length_cons, Transcript.readsAll_after, encounters]
      rw [completed] at hexit
      by_cases hopen : hasOpenBrackets (String.intercalate "\n" (r.buffer ++ [line])) = true
      · have hstep : r.step (.line line) = ⟨"", "", .more ⟨r.session, r.buffer ++ [line]⟩⟩ :=
          if_pos hopen
        rw [if_pos hopen] at hexit ⊢
        rw [hstep]
        exact ih ⟨r.session, r.buffer ++ [line]⟩ hs hexit
      · have hstep : r.step (.line line)
            = respond r.session (String.intercalate "\n" (r.buffer ++ [line])) := if_neg hopen
        rw [if_neg hopen, List.forall_mem_cons] at hexit ⊢
        rw [hstep]
        rcases respond_cases hs hexit.1 with ⟨⟨s', hs', hnext⟩, hlasts⟩ | ⟨⟨crash, hnext⟩, hbreaks⟩
        · rw [hnext]
          exact (ih ⟨s', []⟩ hs' hexit.2).trans (and_iff_right hlasts).symm
        · rw [hnext]
          refine iff_of_false ?_ fun h => h.1 hbreaks
          rintro ⟨-, hbroken, -, -⟩
          cases hbroken

end Ember.Repl

namespace Ember.Grammar

variable {c : Cursor} {ds : List Char} {n : Nat}

/-! ### An integer literal of too many digits -/

theorem number_hugeInteger (h : Cursor.At ds c) (hds : ∀ x ∈ ds, x.isDigit)
    (hlong : Decimal.maxDigits < ds.length) : number .read c = .stop (.hugeInteger ds.length) := by
  have hsize : Lexeme.number? ds = some ds.length := by
    have hne : ds ≠ [] := List.ne_nil_of_length_pos (by omega)
    have hend : Delimited [] := by simp [Delimited]
    have hdigits := number?_digits hds hne hend
    rwa [List.append_nil] at hdigits
  simp only [number, bind_eq, Parser.bind, lexeme, h.rest, hsize, Token.take, List.take_length,
    isFloat_digits hds, Bool.false_eq_true, if_false]
  exact congrFun (if_pos ⟨trivial, hlong⟩) _

/-- No statement that is tried before expressions starts with a digit, and none is tried after the
number. -/
theorem statement_hugeInteger (h : Cursor.At ds c) (hds : ∀ x ∈ ds, x.isDigit)
    (hlong : Decimal.maxDigits < ds.length) :
    statement (nest (n + 1)) .read c = .stop (.hugeInteger ds.length) := by
  have hmark : ∀ x ∈ ds.head?, Text.isNameStart x = false ∧ x ≠ '\x7b' := by
    intro x hx
    have hall : ∀ x ∈ openers, Text.isNameStart x = false ∧ x ≠ '\x7b' := forall_of_all (by decide)
    exact hall x (openers_of_isDigit (hds x (List.mem_of_mem_head? hx)))
  obtain ⟨f, hf⟩ : (firstOf (commandStatements (nest (n + 1)) .read) c.skip).Fails :=
    (unclaimed_of_mark (by rwa [h.at.rest])).commandStatements_fail
  have hplain : postfixed (nest (n + 1)) .read c.skip = .stop (.hugeInteger ds.length) := by
    simp only [postfixed, primary, choice, bind_eq, Parser.bind, h.skip, firstOf,
      number_hugeInteger h.at hds hlong, Outcome.relabel]
  simp only [commandStatements, wordStatements, List.cons_append, List.nil_append] at hf
  simp only [statement, bareStatement, bind_eq, Parser.bind, hf, hplain, assignFrom]

/-- What stops the first statement stops the program. -/
theorem program_stops {stop : Stop} (hne : c.rest ≠ [])
    (h : statement (nest maxDepth) .read c = .stop stop) : program c = .stop stop := by
  obtain ⟨x, xs, hrest⟩ := List.exists_cons_of_ne_nil hne
  have hgrow : grow maxDepth [] c = .stop stop := by rw [grow, bind_eq, Parser.bind, h]
  have hstatements : statements (nest maxDepth) .read c = .stop stop := by
    change Parser.bind (repeatedly (grow maxDepth) []) (fun ss => pure ss.reverse) c = _
    simp only [Parser.bind, repeatedly, hrest, iterate, hgrow]
  rw [program, bind_eq, Parser.bind, hstatements]

end Ember.Grammar

namespace Ember

variable {ds : List Char}

/-- **An integer literal of too many digits is not read**, and is no syntax error either. -/
theorem parseProgram_hugeInteger (filename : String) (hds : ∀ x ∈ ds, x.isDigit)
    (hlong : Decimal.maxDigits < ds.length) :
    parseProgram filename (String.ofList ds) = .error (.hugeInteger ds.length) := by
  have hopeners : ∀ x ∈ ds, x ∈ Grammar.openers := fun x hx => Grammar.openers_of_isDigit (hds x hx)
  have hscanned : scanned (String.ofList ds) = ds := by
    have hall : ∀ x ∈ Grammar.openers, x ≠ '\t' := Grammar.forall_of_all (by decide)
    rw [scanned, String.toList_ofList]
    exact expandTabs_of_tabless fun x hx => hall x (hopeners x hx)
  have hstarts : Cursor.Starts ds := by
    have hall : ∀ x ∈ Grammar.openers, Cursor.isSpace x = false ∧ x ≠ '/' :=
      Grammar.forall_of_all (by decide)
    exact fun x hx => hall x (hopeners x (List.mem_of_mem_head? hx))
  have hat : Cursor.At ds (.start filename ds) := Cursor.at_here rfl hstarts rfl
  have hne : ds ≠ [] := List.ne_nil_of_length_pos (by omega)
  have hstop : Grammar.program (.start filename ds) = .stop (.hugeInteger ds.length) :=
    Grammar.program_stops hne (Grammar.statement_hugeInteger (n := 149) hat hds hlong)
  simp only [parseProgram, parseWith, hscanned, hstop]

theorem Text.trimWhere_eq_self {p : Char → Bool} {cs : List Char}
    (hfirst : ∀ x ∈ cs.head?, p x = false) (hlast : ∀ x ∈ cs.getLast?, p x = false) :
    Text.trimWhere p cs = cs := by
  have hdrop : ∀ {cs : List Char}, (∀ x ∈ cs.head?, p x = false) → cs.dropWhile p = cs := by
    intro cs hcs
    cases cs with
    | nil => rfl
    | cons x xs => exact List.dropWhile_cons_of_neg (by simp [hcs x rfl])
  rw [trimWhere, hdrop hfirst, hdrop (by rwa [List.head?_reverse]), List.reverse_reverse]

namespace Repl

/-- A row of digits opens no bracket. -/
theorem foldl_digits (scan : BracketScan) (hscan : scan.inString = false)
    (hds : ∀ x ∈ ds, x.isDigit) : ds.foldl BracketScan.step scan = scan := by
  induction ds with
  | nil => rfl
  | cons x ds ih =>
      obtain ⟨hx, hds⟩ := List.forall_mem_cons.mp hds
      have hstep : scan.step x = scan := by
        have hfree : ∀ y ∈ [Text.doubleQuote, '(', '[', '\x7b', ')', ']', '\x7d'], x ≠ y := by
          have hall : ∀ y ∈ [Text.doubleQuote, '(', '[', '\x7b', ')', ']', '\x7d'],
              y.isDigit = false := Grammar.forall_of_all (by decide)
          intro y hy heq
          rw [heq, hall y hy] at hx
          cases hx
        simp only [List.mem_cons, List.not_mem_nil, or_false, forall_eq_or_imp, forall_eq] at hfree
        simp [BracketScan.step, hscan, hfree]
      rw [List.foldl_cons, hstep, ih hds]

/-- Listing an integer literal of too many digits breaks a conversation, whatever its session. -/
theorem breaks_digits (s : Session) (hds : ∀ x ∈ ds, x.isDigit)
    (hlong : Decimal.maxDigits < ds.length) :
    hasOpenBrackets (":parse " ++ String.ofList ds) = false ∧
      Breaks s (":parse " ++ String.ofList ds) := by
  have hchars : (":parse " ++ String.ofList ds).toList = ":parse ".toList ++ ds := by
    rw [String.toList_append, String.toList_ofList (l := ds)]
  constructor
  · rw [hasOpenBrackets, hchars, List.foldl_append, foldl_digits _ (by decide) hds]
    decide
  · have hstrip : Text.trimWhere Text.isBlank (":parse ".toList ++ ds)
        = ":parse ".toList ++ ds := by
      refine Text.trimWhere_eq_self (fun x hx => ?_) fun x hx => ?_
      · cases hx
        decide
      · have hall : ∀ x ∈ Grammar.openers, Text.isBlank x = false :=
          Grammar.forall_of_all (by decide)
        have hne : ds ≠ [] := List.ne_nil_of_length_pos (by omega)
        rw [List.getLast?_append_of_ne_nil _ hne] at hx
        exact hall x (Grammar.openers_of_isDigit (hds x (List.mem_of_getLast? hx)))
    have hcommand : ":parse" ∈ listingCommands := List.mem_cons_self
    refine .listing hcommand ?_ (.number (parseProgram_hugeInteger _ hds hlong))
    rw [Text.strip, Text.trim, hchars, hstrip, ← hchars, String.ofList_toList]
    rfl

/-- Where the stack is too small for an array inside another one, a list of bindings that has such a
value ends the conversation. -/
example :
    let settings : Settings := { maxDepth := 10, debug := false, host := ⟨9, 1, 9, 9⟩ }
    let t := (Repl.start settings).converse (["let a = [[1]]", ":env", "a"].map .line)
    t.broken = some .stackExhausted ∧ t.unread = 1 := by
  decide +kernel

theorem completed_cons {line : String} (h : hasOpenBrackets line = false) (lines : List String) :
    completed [] (line :: lines) = line :: completed [] lines := by
  rw [completed, List.nil_append, String.intercalate_singleton, if_neg (by simp [h])]

theorem mem_encounters {line : String} (h : hasOpenBrackets line = false) (s : Session)
    (lines : List String) : (s, line) ∈ encounters s [] (line :: lines) := by
  rw [encounters, List.nil_append, String.intercalate_singleton, if_neg (by simp [h])]
  exact List.mem_cons_self

end Repl

end Ember
