import Mathlib.Data.List.Nodup
import Ember.Proofs.Placement

/-!
# Scoping — the chain of a frame is as long as the nesting of the code

A frame is added for every block that is entered, and a function runs in a frame inside the one in
which it was made. So the number of frames from the frame of a node outwards is known before
anything runs: it is one more than the number of blocks around the node, wherever the functions
around it were called from and however many calls are in progress.

* `Node.Nested`: a node of a program, with the number of blocks around it.
* `Node.Nested.unique`: nodes that are equal have as many blocks around them, if they were read.
* `Store.depth_extends`, `Store.depth_addFrame`: frames that stay keep their depth, and a new frame
  is one deeper than the frame that encloses it.
* `Store.Scoped`: every function was made in a frame as deep as its body is nested.
* `depth_eq_nesting`: so it is with everything that is ever evaluated or executed.
-/

namespace Ember

/-! ### Nesting -/

/-- The node is part of the programs, with that many blocks around it. -/
inductive Node.Nested (ps : List Node) : Nat → Node → Prop where
  | top {n : Node} : n ∈ ps → Nested ps 0 n
  | part {k : Nat} {n c : Node} : Nested ps k n → n.isBlock = false → c ∈ n.parts → Nested ps k c
  | statement {k : Nat} {ss : List Node} {span : Option Span} {c : Node} :
      Nested ps k (.block ss span) → c ∈ ss → Nested ps (k + 1) c

/-- Programs that follow do not change how a node is nested. -/
theorem Node.Nested.append {ps : List Node} {k : Nat} {n : Node} (h : Nested ps k n)
    (qs : List Node) : Nested (ps ++ qs) k n := by
  induction h with
  | top h => exact .top (List.mem_append_left _ h)
  | part _ hn hc ih => exact .part ih hn hc
  | statement _ hc ih => exact .statement ih hc

/-- The node is a statement of the program that is read from a text. -/
def Node.ReadFrom (filename source : String) (n : Node) : Prop :=
  ∃ ts ns, parseProgram filename source = .ok ts ∧ analyzeTrees ts = .ok ns ∧ n ∈ ns

/-- What is nested in statements that start without open braces has as many braces open around it as
it has blocks. -/
theorem Node.Nested.leveled {ps : List Node} {k : Nat} {n : Node} (h : Nested ps k n)
    {P : Cursor → Prop} (hps : ∀ p ∈ ps, ∃ b, P b ∧ p.Leveled b 0) :
    ∃ b, P b ∧ n.Leveled b k := by
  induction h with
  | top hn => exact hps _ hn
  | part _ hblock hc ih =>
      obtain ⟨b, hb, hn⟩ := ih
      exact ⟨b, hb, hn.part hblock hc⟩
  | statement _ hc ih =>
      obtain ⟨b, hb, hn⟩ := ih
      exact ⟨b, hb, hn.statement hc⟩

/-- **Equal nodes are equally nested**, in one program that was read from a text or in several ones
from texts with different names: a node carries its place, and the place tells how many braces are
open there. -/
theorem Node.Nested.unique {texts : List (String × String)} {ps : List Node} {j k : Nat} {n : Node}
    (hnames : (texts.map Prod.fst).Nodup)
    (hps : ∀ p ∈ ps, ∃ text ∈ texts, p.ReadFrom text.1 text.2)
    (h : Nested ps j n) (h' : Nested ps k n) : j = k := by
  have hleveled : ∀ p ∈ ps, ∃ b, (∃ text ∈ texts, b = .start text.1 (scanned text.2)) ∧
      p.Leveled b 0 := by
    intro p hp
    obtain ⟨text, htext, ts, ns, hts, hns, hp⟩ := hps p hp
    exact ⟨_, ⟨text, htext, rfl⟩, analyzeTrees_leveled hts hns p hp⟩
  obtain ⟨_, ⟨text, htext, rfl⟩, hn⟩ := h.leveled hleveled
  obtain ⟨_, ⟨text', htext', rfl⟩, hn'⟩ := h'.leveled hleveled
  -- the place names the file, so both are places in one text
  have hfile : some text.1 = some text'.1 := hn.opens.filename.symm.trans hn'.opens.filename
  obtain rfl : text = text' :=
    List.inj_on_of_nodup_map hnames htext htext' (Option.some.inj hfile)
  exact Int.ofNat.inj (hn.opens.unique hn'.opens)

namespace Store

variable {s s' : Store} {e p : Nat} {f : Frame}

/-! ### The depth of frames -/

/-- A frame comes after the frame that encloses it. -/
def Layered (s : Store) : Prop := ∀ e f p, s.frame? e = some f → f.parent = some p → p < e

theorem frame?_of_lt (h : e < s.frames.size) : ∃ f, s.frame? e = some f :=
  ⟨s.frames[e], Array.getElem?_eq_getElem h⟩

/-- The address of a frame bounds its chain. -/
theorem chainFrom_eq_chain (hs : s.Layered) {steps : Nat} (he : e < steps) :
    s.chainFrom steps e = s.chain e := by
  induction steps using Nat.strongRecOn generalizing e with
  | _ steps ih =>
      obtain ⟨steps, rfl⟩ : ∃ k, steps = k + 1 := ⟨steps - 1, by omega⟩
      rw [chain, chainFrom, chainFrom]
      cases hf : s.frame? e with
      | none => rfl
      | some f =>
          simp only [List.cons.injEq, true_and]
          cases hp : f.parent with
          | none => rfl
          | some p =>
              have hpe := hs e f p hf hp
              exact (ih steps (by omega) (by omega)).trans (ih e he hpe).symm

/-- The outermost frame has depth one. -/
theorem depth_of_parent_none (hf : s.frame? e = some f) (hp : f.parent = none) :
    s.depth e = 1 := by
  simp [depth, chain, chainFrom, hf, hp]

/-- A frame is one deeper than the frame that encloses it. -/
theorem depth_of_parent (hs : s.Layered) (hf : s.frame? e = some f) (hp : f.parent = some p) :
    s.depth e = s.depth p + 1 := by
  have hchain : s.chain e = e :: s.chain p := by
    rw [chain, chainFrom, hf]
    simp only [hp, chainFrom_eq_chain hs (hs e f p hf hp)]
  rw [depth, hchain, List.length_cons, depth]

theorem Extends.lt_size (h : s.Extends s') (he : e < s.frames.size) : e < s'.frames.size :=
  has_frame.mp (h.has (has_frame.mpr he))

/-- **Frames that stay keep their depth.** -/
theorem depth_extends (hs : s.Layered) (h : s.Extends s') (he : e < s.frames.size) :
    s'.depth e = s.depth e := by
  have hchain : ∀ steps, s'.chainFrom steps e = s.chainFrom steps e := by
    intro steps
    induction steps generalizing e with
    | zero => rfl
    | succ steps ih =>
        obtain ⟨f, hf⟩ := frame?_of_lt he
        obtain ⟨y, hy, hfy⟩ := h (.frame e) (.frame f) (by simp [object?, hf])
        obtain ⟨f', hf', rfl⟩ := Option.map_eq_some_iff.mp hy
        have hparent : f'.parent = f.parent := hfy
        rw [chainFrom, chainFrom, hf, hf']
        simp only [hparent, List.cons.injEq, true_and]
        cases hp : f.parent with
        | none => rfl
        | some p => exact ih (Nat.lt_trans (hs e f p hf hp) he)
  rw [depth, chain, hchain, depth, chain]

/-- A new frame inside of an old one keeps the frames layered. -/
theorem Layered.addFrame (hs : s.Layered) (he : e < s.frames.size) :
    (s.addFrame (some e)).1.Layered := by
  intro x f p hf hp
  rw [frame?_addFrame] at hf
  split at hf
  · cases hf
    cases hp
    omega
  · exact hs x f p hf hp

/-- **A new frame is one deeper than the frame that encloses it.** -/
theorem depth_addFrame (hs : s.Layered) (he : e < s.frames.size) :
    (s.addFrame (some e)).1.depth s.frames.size = s.depth e + 1 := by
  have hnew : (s.addFrame (some e)).1.frame? s.frames.size = some ⟨some e, []⟩ := by
    rw [frame?_addFrame, if_pos rfl]
  rw [depth_of_parent (hs.addFrame he) hnew rfl,
    depth_extends hs (writes_addFrame s (some e)).toExtends he]

/-- Changing bindings keeps the frames layered. -/
theorem Layered.modifyFrame (hs : s.Layered) (e : Nat) {g : Frame → Frame}
    (hg : ∀ f, (g f).parent = f.parent) :
    ({ s with frames := s.frames.modify e g } : Store).Layered := by
  intro x f p hf hp
  rw [frame?_modify] at hf
  split at hf
  · obtain ⟨f', hf', rfl⟩ := Option.map_eq_some_iff.mp hf
    exact hs x f' p hf' (hg f' ▸ hp)
  · exact hs x f p hf hp

/-! ### Scoped stores -/

/-- The frame is there, and its chain is one longer than `k`. -/
structure Deep (s : Store) (e k : Nat) : Prop where
  there : e < s.frames.size
  depth : s.depth e = 1 + k

/-- Frames keep their depth as the store grows. -/
theorem Deep.extend {k : Nat} (h : s.Deep e k) (hs : s.Layered) (hext : s.Extends s') :
    s'.Deep e k :=
  ⟨hext.lt_size h.there, (depth_extends hs hext h.there).trans h.depth⟩

/-- The root frame is the only one around itself, and every function was made in a frame as deep as
its body is nested in the programs. -/
structure Scoped (ps : List Node) (s : Store) : Prop where
  layered : s.Layered
  root : s.Deep root 0
  closures : ∀ f c, s.closure? f = some c → ∃ k, Node.Nested ps k c.body ∧ s.Deep c.frame k

namespace Scoped

variable {ps : List Node}

/-- At the start of a session there are no closures, so nothing has to be nested. -/
theorem fresh : Store.fresh.Scoped [] where
  layered e f p hf hp := by
    obtain ⟨he, rfl⟩ := Array.getElem?_eq_some_iff.mp hf
    simp [Store.fresh] at hp
  root := ⟨by decide, depth_of_parent_none (f := Store.fresh.frames[0]) rfl rfl⟩
  closures f c hc := by simp [closure?, Store.fresh] at hc

/-- A store stays scoped as further programs come in. -/
theorem append (h : s.Scoped ps) (qs : List Node) : s.Scoped (ps ++ qs) where
  layered := h.layered
  root := h.root
  closures f c hc := by
    obtain ⟨k, hk, hdeep⟩ := h.closures f c hc
    exact ⟨k, hk.append qs, hdeep⟩

/-- An extension is scoped if the functions that it adds are. -/
theorem extend (h : s.Scoped ps) (hext : s.Extends s') (hlayered : s'.Layered)
    (hclosures : ∀ f c, s'.closure? f = some c →
      s.closure? f = some c ∨ ∃ k, Node.Nested ps k c.body ∧ s'.Deep c.frame k) :
    s'.Scoped ps where
  layered := hlayered
  root := h.root.extend h.layered hext
  closures f c hc := by
    rcases hclosures f c hc with hc | hc
    · obtain ⟨k, hk, hdeep⟩ := h.closures f c hc
      exact ⟨k, hk, hdeep.extend h.layered hext⟩
    · exact hc

/-- A new frame is one deeper than the frame around it. -/
theorem addFrame {k : Nat} (h : s.Scoped ps) (he : s.Deep e k) :
    (s.addFrame (some e)).1.Scoped ps ∧ (s.addFrame (some e)).1.Deep s.frames.size (k + 1) := by
  have hext : s.Extends (s.addFrame (some e)).1 := (writes_addFrame s (some e)).toExtends
  refine ⟨h.extend hext (h.layered.addFrame he.there) fun _ _ hc => .inl hc, ?_, ?_⟩
  · exact has_frame.mp (has_addFrame s (some e))
  · rw [depth_addFrame h.layered he.there, he.depth]
    omega

/-- A closure may be added where its body is nested as deep as its frame. -/
theorem addClosure {c : Closure} {k : Nat} (h : s.Scoped ps) (hc : Node.Nested ps k c.body)
    (he : s.Deep c.frame k) : (s.addClosure c).1.Scoped ps := by
  have hext : s.Extends (s.addClosure c).1 := (writes_addClosure s c).toExtends
  refine h.extend hext h.layered fun f d hd => ?_
  rw [closure?_addClosure] at hd
  split at hd
  · cases hd
    exact .inr ⟨k, hc, he.extend h.layered hext⟩
  · exact .inl hd

theorem modifyFrame (h : s.Scoped ps) {g : Frame → Frame} (hg : ∀ f, (g f).parent = f.parent)
    (hext : s.Extends { s with frames := s.frames.modify e g }) :
    ({ s with frames := s.frames.modify e g } : Store).Scoped ps :=
  h.extend hext (h.layered.modifyFrame e hg) fun _ _ hc => .inl hc

end Scoped

end Store

/-! ### Every state of a session -/

/-- A node runs in a frame as deep as it is nested; nothing is asked of values. -/
def Regime.scoping (ps : List Node) : Regime where
  Inv := Store.Scoped ps
  Good _ _ := True
  Scope s e := e < s.frames.size
  Fits s e n := ∃ k, Node.Nested ps k n ∧ s.Deep e k
  Inner s e n := ∃ k, Node.Nested ps k n ∧ s.Deep e (k + 1)
  Measurable _ _ := True
  good_mono _ h := h
  fits_mono := by
    rintro s s' e n hs hext ⟨k, hn, he⟩
    exact ⟨k, hn, he.extend hs.layered hext⟩
  inner_mono := by
    rintro s s' e n hs hext ⟨k, hn, he⟩
    exact ⟨k, hn, he.extend hs.layered hext⟩
  fits_scope := by
    rintro s e n ⟨k, -, he⟩
    exact he.there
  inner_scope := by
    rintro s e n ⟨k, -, he⟩
    exact he.there
  fits_part := by
    rintro s e n c ⟨k, hn, he⟩ hblock hc
    exact ⟨k, hn.part hblock hc, he⟩
  fits_statement := by
    rintro s e ss span n ⟨k, hb, he⟩ hn
    exact ⟨k + 1, hb.statement hn, he⟩
  good_plain _ := trivial
  good_between _ _ _ _ := trivial
  good_length _ _ _ _ := trivial
  good_lookup _ _ _ := trivial
  good_element _ _ _ := trivial
  addFrame := by
    rintro s e b hs ⟨k, hb, he⟩
    obtain ⟨hs', hnew⟩ := hs.addFrame he
    exact ⟨hs', k, hb, hnew⟩
  -- the new frame lies inside the one in which the function was made
  addCall := by
    rintro s f c hs - hc
    obtain ⟨k, hb, he⟩ := hs.closures f c hc
    obtain ⟨hs', hnew⟩ := hs.addFrame he
    exact ⟨hs', k, hb, hnew⟩
  addArray hs _ :=
    ⟨hs.extend (Store.writes_addArray ..).toExtends hs.layered fun _ _ hc => .inl hc, trivial⟩
  addClosure := by
    rintro s c hs ⟨k, hb, he⟩
    exact ⟨hs.addClosure hb he, trivial⟩
  declare hs _ _ := hs.modifyFrame (fun _ => rfl) (Store.writes_declare ..).toExtends
  update hs _ _ _ := hs.modifyFrame (fun _ => rfl) (Store.writes_update ..).toExtends
  push hs _ _ := hs.extend (Store.writes_push ..).toExtends hs.layered fun _ _ hc => .inl hc
  pop hs _ := hs.extend (Store.writes_pop ..).toExtends hs.layered fun _ _ hc => .inl hc
  setElement hs _ _ :=
    hs.extend (Store.writes_setElement ..).toExtends hs.layered fun _ _ hc => .inl hc

/-- **Scoping is lexical.** Let any programs have run one after the other from a fresh machine, and
let another one run. Whenever a node is evaluated or executed in a frame, the chain of that frame is
one longer than the number of blocks around the node in the programs. That is one number if the
programs were read from texts with different names (`Node.Nested.unique`), and names may be given as
one likes, since no step of a run looks at them. -/
theorem depth_eq_nesting (cfg : Settings) (ps ns : List Node) (m : Machine) (fuel : Nat)
    (hm : History cfg (fun _ => True) ps m) (x : Moment) (hx : Enters cfg fuel ns m.cleared x)
    (n : Node) (e : Nat) (hn : x.activity = .eval n e ∨ x.activity = .exec n e) :
    ∃ k, Node.Nested (ps ++ ns) k n ∧ x.machine.store.depth e = 1 + k := by
  have hroot : ∀ {ps s n}, Store.Scoped ps s → n ∈ ps →
      (Regime.scoping ps).Fits s Store.root n := fun hs hn => ⟨0, .top hn, hs.root⟩
  have hassumes : ∀ {ps} (x : Moment), (Regime.scoping ps).Assumes x := fun _ _ _ _ => trivial
  have hs : m.store.Scoped ps := History.inv Regime.scoping .fresh (fun ns h => h.append ns)
    hroot (fun _ x _ => hassumes x) hm
  have hfits : ∀ n ∈ ns, (Regime.scoping (ps ++ ns)).Fits m.cleared.store Store.root n :=
    fun n hn => hroot (hs.append ns) (List.mem_append_right _ hn)
  obtain ⟨⟨-, hadmits⟩, -⟩ := (Regime.enters (R := Regime.scoping (ps ++ ns)) (m := m.cleared)
    (v := .unit) (hs.append ns) hfits trivial fun x _ => hassumes x).1 x hx
  obtain ⟨k, hk, hdeep⟩ : (Regime.scoping (ps ++ ns)).Fits x.machine.store e n := by
    rcases hn with hn | hn <;> rw [hn] at hadmits <;> exact hadmits
  exact ⟨k, hk, hdeep.depth⟩

/-- A block leads to its first statement, in a new frame. -/
theorem Moment.leads_statement {cfg : Settings} (hcfg : cfg.debug = false) (fuel e : Nat)
    (m : Machine) (n : Node) (ns : List Node) (span : Option Span) :
    Moment.Leads cfg ⟨fuel + 4, .exec (.block (n :: ns) span) e, m⟩
      ⟨fuel, .exec n m.store.frames.size, { m with store := (m.store.addFrame (some e)).1 }⟩ := by
  have htrace : ∀ line, (Run.traceLine cfg line).run.run m = (.ok (), m) := by
    intro line
    rw [Run.traceLine, hcfg]
    rfl
  refine .head (b := ⟨fuel + 3, _, m⟩) ⟨rfl, .inr ⟨(), m, htrace _, rfl, rfl⟩⟩ ?_
  refine .head (b := ⟨fuel + 2, _, _⟩) ⟨rfl, .inr ⟨_, _, rfl, rfl, rfl⟩⟩ ?_
  refine .head (b := ⟨fuel + 1, _, _⟩) ⟨rfl, rfl, rfl⟩ ?_
  exact .single ⟨rfl, .inl ⟨rfl, rfl⟩⟩

/-- What `f` does in the program below. -/
def calledStatement : Node := .exprStmt (.literal (.int 1) .int none) none

/-- A call of `f`. -/
def callStatement : Node := .exprStmt (.call (.identifier "f" none) [] none) none

/-- `fun f() { 1 }` and `{ { f() } }`, without places. -/
def nestedCall : List Node :=
  [.functionDef "f" [] (.block [calledStatement] none) none,
    .block [.block [callStatement] none] none]

/-- The machine in which `f` is bound, with frames inside the given ones. -/
def nestedCallMachine (parents : List Nat) (depth : Nat) : Machine :=
  let c : Closure := ⟨some "f", [], .block [calledStatement] none, Store.root⟩
  let s := (Store.fresh.addClosure c).1.declare Store.root "f" (.function 0) false
  ⟨parents.foldl (fun s p => (s.addFrame (some p)).1) s, "", "", depth⟩

theorem nestedCall_enters :
    Enters ⟨1, false⟩ 20 nestedCall Machine.fresh
      ⟨7, .exec calledStatement 3, nestedCallMachine [0, 1, 0] 1⟩ := by
  let m := nestedCallMachine [0, 1] 0
  let m' := nestedCallMachine [0, 1, 0] 0
  refine .inr ⟨none, nestedCallMachine [] 0, rfl, .inl ?_⟩
  refine (Moment.leads_statement rfl 16 0 _ _ [] none).trans ?_
  refine (Moment.leads_statement rfl 12 1 (nestedCallMachine [0] 0) _ [] none).trans ?_
  refine .head (b := ⟨11, .eval (.call (.identifier "f" none) [] none) 2, m⟩)
    ⟨rfl, .inr ⟨(), m, rfl, .inl ⟨rfl, rfl⟩⟩⟩ ?_
  -- the function is found, then the arguments, then the call is made
  refine .head (b := ⟨10, .apply (.function 0) [], m⟩)
    ⟨rfl, .inr ⟨(), m, rfl, .inr ⟨.function 0, m, rfl, .inr ⟨[], m, rfl, rfl, rfl⟩⟩⟩⟩ ?_
  refine .head (b := ⟨9, .block (.block [calledStatement] none) 3, nestedCallMachine [0, 1, 0] 1⟩)
    ⟨rfl, .inr ⟨_, m, rfl, .inr ⟨m, m, rfl, .inr ⟨(), m, rfl, .inr ⟨(), m, rfl,
      .inr ⟨3, m', rfl, .inr ⟨(), m', rfl, .inr ⟨(), m', rfl, .inl ⟨rfl, rfl⟩⟩⟩⟩⟩⟩⟩⟩⟩ ?_
  refine .head (b := ⟨8, .all [calledStatement] (.normal none) 3, _⟩) ⟨rfl, rfl, rfl⟩ ?_
  exact .single ⟨rfl, .inl ⟨rfl, rfl⟩⟩

/-- The function runs in a frame of depth two, and its caller in one of depth three. -/
theorem nestedCall_depth :
    (nestedCallMachine [0, 1, 0] 1).store.depth 2 = 3 ∧
      ∃ k, Node.Nested ([] ++ nestedCall) k calledStatement ∧
        (nestedCallMachine [0, 1, 0] 1).store.depth 3 = 1 + k :=
  ⟨rfl, depth_eq_nesting ⟨1, false⟩ [] nestedCall .fresh 20 .fresh _ nestedCall_enters
    calledStatement 3 (.inr rfl)⟩

end Ember
