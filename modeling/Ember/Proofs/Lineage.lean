import Ember.Proofs.Bindings
import Ember.Proofs.Safety
import Ember.Proofs.Store.Alike

/-!
# Lineage — every frame descends from the root

Frames, arrays and functions refer to each other in all directions, and what goes outwards from a
frame, be it in search of a name or to count frames, has no bound of its own. It comes to an end all
the same: a frame is made inside one that is there already, and nothing gives it another parent
later. So addresses descend along the parents, down to the root frame, where the built-in functions
are bound.

* `Store.Path`, `Store.Search`, `Store.Count`: going outwards without a bound.
* `Store.WellFormed`: what keeps it finite.
* `Regime.lineage`: every operation on stores keeps that up.
* `store_stays_wellFormed`: so it is in every state of a session.
-/

namespace Ember

/-! ### Names of frames -/

namespace Frame

theorem names_update (f : Frame) (name : String) (v : Value) :
    (f.update name v).names = f.names := by
  obtain ⟨parent, bs⟩ := f
  change (updateIn name v bs).map (·.name) = bs.map (·.name)
  induction bs with
  | nil => rfl
  | cons a rest ih =>
      rw [updateIn]
      split
      · rfl
      · rw [List.map_cons, ih, List.map_cons]

theorem names_declare_prefix (f : Frame) (name : String) (v : Value) (m : Bool) :
    f.names <+: (f.declare name v m).names := by
  change f.names <+: (declareIn ⟨name, v, m⟩ f.bindings).map (·.name)
  rcases names_declareIn ⟨name, v, m⟩ f.bindings with h | ⟨-, h⟩ <;> rw [h]
  · exact List.prefix_rfl
  · exact List.prefix_append _ _

end Frame

/-! ### Going outwards -/

namespace Store

variable {s : Store} {e p : Nat} {f : Frame} {name : String}

/-- The frames from one outwards; the last of them is the root frame. -/
inductive Path (s : Store) : Nat → List Nat → Prop where
  | root {f : Frame} : s.frame? root = some f → f.parent = none → Path s root [root]
  | inside {e p : Nat} {f : Frame} {es : List Nat} : s.frame? e = some f → f.parent = some p →
      Path s p es → Path s e (e :: es)

/-- Frame by frame, a search for a name goes outwards. It visits some frames and ends in one that
binds the name, or where there is no frame any more. -/
inductive Search (s : Store) (name : String) : Option Nat → List Nat → Option Nat → Prop where
  | over : Search s name none [] none
  | here {e : Nat} {f : Frame} : s.frame? e = some f → f.binds name = true →
      Search s name (some e) [e] (some e)
  | outwards {e : Nat} {f : Frame} {es : List Nat} {g : Option Nat} : s.frame? e = some f →
      f.binds name = false → Search s name f.parent es g → Search s name (some e) (e :: es) g

/-- Frame by frame, counting goes outwards until there is no frame any more. -/
inductive Count (s : Store) : Option Nat → Nat → Prop where
  | over : Count s none 0
  | outwards {e n : Nat} {f : Frame} : s.frame? e = some f → Count s f.parent n →
      Count s (some e) (n + 1)

/-- Whatever goes outwards comes to an end, at the root frame at the latest. -/
structure WalksEnd (s : Store) : Prop where
  path : ∀ e < s.frames.size, s.Path e (s.chain e)
  count : ∀ e < s.frames.size, s.Count (some e) (s.depth e)
  search : ∀ e < s.frames.size, ∀ name, ∃ es,
    s.Search name (some e) es (s.find? e name) ∧ es <+: s.chain e

/-! ### Well-formed stores -/

/-- What anything refers to is there, a frame comes after the frame that encloses it, and only the
root frame, where the names of the built-in functions come first, is enclosed by none. -/
structure WellFormed (s : Store) : Prop where
  resolves : s.Resolves
  layered : s.Layered
  root : ∃ f, s.frame? root = some f ∧ f.parent = none ∧ Builtin.all.map Builtin.name <+: f.names
  enclosed : ∀ e f, s.frame? e = some f → f.parent = none → e = Store.root

namespace WellFormed

theorem has_parent (h : s.WellFormed) (hf : s.frame? e = some f) (hp : f.parent = some p) :
    p < s.frames.size := by
  refine has_frame.mp (h.resolves (.frame e) (.frame p) ?_)
  rw [mem_refs_frame hf, Frame.refs, hp]
  exact List.mem_cons_self

/-- By induction on the address: the parent has a smaller one. -/
theorem path (h : s.WellFormed) (he : e < s.frames.size) : s.Path e (s.chain e) := by
  induction e using Nat.strongRecOn with
  | _ e ih =>
      obtain ⟨f, hf⟩ := frame?_of_lt he
      rw [chain_of_frame h.layered hf]
      cases hp : f.parent with
      | none =>
          obtain rfl := h.enclosed e f hf hp
          exact .root hf hp
      | some p => exact .inside hf hp (ih p (h.layered e f p hf hp) (h.has_parent hf hp))

end WellFormed

/-- Counting goes along the path. -/
theorem Path.count {es : List Nat} (h : s.Path e es) : s.Count (some e) es.length := by
  induction h with
  | root hf hp => exact .outwards hf (hp ▸ .over)
  | inside hf hp _ ih => exact .outwards hf (hp ▸ ih)

/-- A search goes along the path, and ends in the first frame that binds the name. -/
theorem Path.search {es : List Nat} (h : s.Path e es) (name : String) :
    ∃ visited, s.Search name (some e) visited (es.find? (s.binds name)) ∧ visited <+: es := by
  induction h with
  | @root f hf hp =>
      have hbinds : s.binds name Store.root = f.binds name := by simp [binds, hf]
      refine ⟨[Store.root], ?_, List.prefix_rfl⟩
      cases hname : f.binds name with
      | true => simpa [hbinds, hname] using Search.here hf hname
      | false =>
          have hover : s.Search name f.parent [] none := by
            rw [hp]
            exact .over
          simpa [hbinds, hname] using Search.outwards hf hname hover
  | @inside e p f es hf hp _ ih =>
      have hbinds : s.binds name e = f.binds name := by simp [binds, hf]
      cases hname : f.binds name with
      | true =>
          refine ⟨[e], ?_, List.prefix_append [e] es⟩
          simpa [hbinds, hname] using Search.here hf hname
      | false =>
          obtain ⟨visited, hsearch, hprefix⟩ := ih
          refine ⟨e :: visited, ?_, List.cons_prefix_cons.mpr ⟨rfl, hprefix⟩⟩
          simpa [hbinds, hname] using Search.outwards hf hname (hp ▸ hsearch)

/-- In a well-formed store every walk along parents ends. -/
theorem WellFormed.walksEnd (h : s.WellFormed) : s.WalksEnd where
  path _ he := h.path he
  count _ he := (h.path he).count
  search _ he name := (h.path he).search name

/-! ### Operations -/

namespace WellFormed

theorem fresh : Store.fresh.WellFormed where
  resolves := fresh_safe.resolves
  layered := Scoped.fresh.layered
  root := by
    refine ⟨⟨none, Builtin.all.map fun b => ⟨b.name, .builtin b 0, false⟩⟩, rfl, rfl, ?_⟩
    simp [Frame.names, Function.comp_def]
  enclosed e f hf _ := by
    obtain ⟨he, -⟩ := Array.getElem?_eq_some_iff.mp hf
    exact Nat.lt_one_iff.mp he

/-- Names may be added to a frame, but it stays where it is. -/
theorem modifyFrame {g : Frame → Frame} (h : s.WellFormed)
    (hres : ({ s with frames := s.frames.modify e g } : Store).Resolves)
    (hparent : ∀ f, (g f).parent = f.parent) (hnames : ∀ f, f.names <+: (g f).names) :
    ({ s with frames := s.frames.modify e g } : Store).WellFormed where
  resolves := hres
  layered := h.layered.modifyFrame e hparent
  root := by
    obtain ⟨f, hf, hnone, hbuiltins⟩ := h.root
    rw [frame?_modify, hf]
    by_cases he : e = Store.root
    · exact ⟨g f, by rw [if_pos he, Option.map_some], (hparent f).trans hnone,
        hbuiltins.trans (hnames f)⟩
    · exact ⟨f, if_neg he, hnone, hbuiltins⟩
  enclosed x f hf hnone := by
    rw [frame?_modify] at hf
    split at hf
    · obtain ⟨f', hf', rfl⟩ := Option.map_eq_some_iff.mp hf
      exact h.enclosed x f' hf' (hparent f' ▸ hnone)
    · exact h.enclosed x f hf hnone

/-- A new frame lies inside one that is there. -/
theorem addFrame (h : s.WellFormed) (hp : s.Has (.frame p)) :
    (s.addFrame (some p)).1.WellFormed where
  resolves := (writes_addFrame s (some p)).resolves h.resolves fun t ht =>
    List.mem_singleton.mp ht ▸ hp
  layered := h.layered.addFrame (has_frame.mp hp)
  root := by
    obtain ⟨f, hf, hroot⟩ := h.root
    have hne : Store.root ≠ s.frames.size := Nat.ne_of_lt (Array.getElem?_eq_some_iff.mp hf).1
    exact ⟨f, by rw [frame?_addFrame, if_neg hne, hf], hroot⟩
  enclosed x f hf hnone := by
    rw [frame?_addFrame] at hf
    split at hf
    · cases hf
      cases hnone
    · exact h.enclosed x f hf hnone

/-- Frames are not concerned. -/
theorem sameFrames {s' : Store} (h : s.WellFormed) (hres : s'.Resolves)
    (hframes : s'.frames = s.frames) : s'.WellFormed := by
  have hframe : ∀ x, s'.frame? x = s.frame? x := fun x => by rw [frame?, hframes, frame?]
  refine ⟨hres, fun x f p hf hp => ?_, ?_, fun x f hf hp => ?_⟩
  · exact h.layered x f p (hframe x ▸ hf) hp
  · rw [hframe]
    exact h.root
  · exact h.enclosed x f (hframe x ▸ hf) hp

end WellFormed

end Store

/-- What is handed on refers to what is there, and code runs in frames that are there. -/
def Regime.lineage : Regime where
  Inv := Store.WellFormed
  Good s v := ∀ r ∈ v.refs, s.Has r
  Scope s e := s.Has (.frame e)
  Fits s e _ := s.Has (.frame e)
  Inner s e _ := s.Has (.frame e)
  Measurable _ _ := True
  good_mono hext h r hr := hext.has (h r hr)
  fits_mono _ hext h := hext.has h
  inner_mono _ hext h := hext.has h
  fits_scope h := h
  inner_scope h := h
  fits_part h _ _ := h
  fits_statement h _ := h
  good_plain h := h.sound.2
  good_between _ _ _ _ _ hr := absurd hr List.not_mem_nil
  good_length _ _ _ _ _ hr := absurd hr List.not_mem_nil
  good_lookup hs he hv _ hr := (Store.reach_of_lookup hv hr).subset
    (fun _ ht => List.mem_singleton.mp ht ▸ he) fun x _ t ht => hs.resolves x t ht
  good_element := by
    intro s a v hs _ hv r hr
    refine hs.resolves (.array a) r ?_
    rw [Store.refs_array]
    exact List.mem_flatMap.mpr ⟨v, Array.mem_toList_iff.mpr hv, hr⟩
  addFrame hs he := ⟨hs.addFrame he, Store.has_addFrame _ _⟩
  addCall := by
    intro s f c hs _ hc
    have hframe : s.Has (.frame c.frame) :=
      hs.resolves (.closure f) _ ((Store.mem_refs_closure hc).mpr rfl)
    exact ⟨hs.addFrame hframe, Store.has_addFrame _ _⟩
  addArray := by
    intro s vs hs hvs
    refine ⟨hs.sameFrames ?_ rfl, fun r hr => ?_⟩
    · refine (Store.writes_addArray s vs).resolves hs.resolves fun t ht => ?_
      obtain ⟨v, hv, ht⟩ := List.mem_flatMap.mp ht
      exact hvs v (Array.mem_toList_iff.mp hv) t ht
    · exact List.mem_singleton.mp hr ▸ Store.has_addArray s vs
  addClosure := by
    intro s c hs hc
    refine ⟨hs.sameFrames ?_ rfl, fun r hr => ?_⟩
    · exact (Store.writes_addClosure s c).resolves hs.resolves fun t ht =>
        List.mem_singleton.mp ht ▸ hc
    · exact List.mem_singleton.mp hr ▸ Store.has_addClosure s c
  declare hs _ hv := hs.modifyFrame ((Store.writes_declare ..).resolves hs.resolves hv)
    (fun _ => rfl) fun f => Frame.names_declare_prefix f ..
  update hs _ hv _ := hs.modifyFrame ((Store.writes_update ..).resolves hs.resolves hv)
    (fun _ => rfl) fun f => Frame.names_update f .. ▸ List.prefix_rfl
  push hs _ hv := hs.sameFrames ((Store.writes_push ..).resolves hs.resolves hv) rfl
  pop hs _ := hs.sameFrames ((Store.writes_pop ..).resolves hs.resolves nofun) rfl
  setElement hs _ hv := hs.sameFrames ((Store.writes_setElement ..).resolves hs.resolves hv) rfl

/-! ### Sessions -/

/-- The store is the one that is there when a function of the evaluator is called, or when one ends,
be it early, or when the program is over. -/
def Passes (cfg : Settings) (fuel : Nat) (ns : List Node) (m : Machine) (s : Store) : Prop :=
  (∃ x, Enters cfg fuel ns m x ∧
    (s = x.machine.store ∨ s = ((x.activity.run cfg x.fuel).run.run x.machine).2.store)) ∨
  s = ((runProgram cfg fuel ns).run.run m).2.store

theorem Regime.inv_of_ended {R : Regime} {α : Type} {Q : α → Machine → Prop} {s : Store}
    {out : Except Halt α × Machine}
    (h : Run.Ended (fun x m => s.Extends m.store ∧ R.Inv m.store ∧ Q x m)
      (fun m => s.Extends m.store ∧ R.Inv m.store) out) : R.Inv out.2.store := by
  rcases out with ⟨_ | _, m⟩
  · exact h.2
  · exact h.2.1

/-- **The store stays well-formed.** Let any programs have run one after the other from a fresh
machine, however each of them ended, and let another one run. Whatever store it comes through, what
anything there refers to is there, and every frame was made after the one that encloses it. Hence
the frames from one outwards end with the root frame, and searching for a name and counting frames
come to an end. -/
theorem store_stays_wellFormed (cfg : Settings) (ps ns : List Node) (m : Machine) (fuel : Nat)
    (hm : History cfg (fun _ => True) ps m) (s : Store) (hs : Passes cfg fuel ns m.cleared s) :
    s.WellFormed ∧ s.WalksEnd := by
  have hroot : ∀ {s : Store}, s.WellFormed → s.Has (.frame Store.root) := by
    intro s h
    obtain ⟨f, hf, -⟩ := h.root
    exact Store.has_frame.mpr (Array.getElem?_eq_some_iff.mp hf).1
  have hassumes : ∀ x : Moment, Regime.lineage.Assumes x := fun _ _ _ _ => trivial
  have hstart : m.store.WellFormed := History.inv (fun _ => Regime.lineage) .fresh
    (fun _ h => h) (fun h _ => hroot h) (fun _ x _ => hassumes x) hm
  obtain ⟨hkept, hends⟩ :
      (∀ x, Enters cfg fuel ns m.cleared x → Regime.lineage.contract.Kept cfg x) ∧
        Regime.lineage.Concludes m.store ((runFrom cfg fuel .unit ns).run.run m.cleared) :=
    Regime.enters hstart (fun _ _ => hroot hstart) nofun fun x _ => hassumes x
  have hformed : s.WellFormed := by
    rcases hs with ⟨x, hx, rfl | rfl⟩ | rfl
    · exact (hkept x hx).1.1
    · exact Regime.inv_of_ended (hkept x hx).2
    · exact Regime.inv_of_ended hends
  exact ⟨hformed, hformed.walksEnd⟩

/-- A call that goes too deep leaves two blocks unfinished, and the session goes on. -/
theorem unfinishedBlocks_wellFormed :
    let out := (runProgram ⟨0, false⟩ 20 nestedCall).run.run Machine.fresh.cleared
    let s := ((runProgram ⟨0, false⟩ 20 [callStatement]).run.run out.2.cleared).2.store
    out.1 = .error (.fault (.callDepth 0 "f") none) ∧ s.chain 2 = [2, 1, 0] ∧
      s.WellFormed ∧ s.WalksEnd := by
  intro out s
  have hhistory : History ⟨0, false⟩ (fun _ => True) ([] ++ nestedCall) out.2 :=
    .program 20 .fresh fun _ _ => trivial
  have hkept := store_stays_wellFormed ⟨0, false⟩ _ [callStatement] _ 20 hhistory s (.inr rfl)
  exact ⟨rfl, by decide +kernel, hkept⟩

end Ember
