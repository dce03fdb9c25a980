import Ember.Proofs.Analysis
import Ember.Proofs.Discipline.Eval
import Ember.Session

/-!
# Safety — programs that were read and analyzed do not go wrong

A program that was read from a text and passed the analysis is well-formed, and so is every
function that it makes. Along a run, every value is of a kind of the language and refers to
something that is there. Hence no access fails, no node turns out to be of a wrong kind, and a
return does not get past the function that it belongs to: what is left are the errors that
programs can be told of.

* `Store.Safe`: what holds of the store along such a run.
* `pipeline_safe`: from the text to the end of the run.
* `Session.Safe.run`: a session stays safe, whatever it is given to run.
-/

namespace Ember

namespace Store

/-- References are to something that is there, values are of known kinds, and functions have
well-formed bodies. -/
structure Safe (s : Store) : Prop where
  resolves : s.Resolves
  bindings : ∀ e f, s.frame? e = some f → ∀ b ∈ f.bindings, b.value.kind?.isSome
  elements : ∀ a vs, s.array? a = some vs → ∀ v ∈ vs, v.kind?.isSome
  bodies : ∀ f c, s.closure? f = some c → c.body.Formed (.block true)

variable {s : Store}

theorem Safe.modifyFrame {e : Nat} {g : Frame → Frame} (h : s.Safe)
    (hres : ({ s with frames := s.frames.modify e g } : Store).Resolves)
    (hg : ∀ f, ∀ b ∈ (g f).bindings, b ∈ f.bindings ∨ b.value.kind?.isSome) :
    ({ s with frames := s.frames.modify e g } : Store).Safe := by
  refine ⟨hres, fun x f hf b hb => ?_, h.elements, h.bodies⟩
  rw [frame?_modify] at hf
  by_cases hx : e = x
  · rw [if_pos hx] at hf
    obtain ⟨f', hf', rfl⟩ := Option.map_eq_some_iff.mp hf
    rcases hg f' b hb with hb | hb
    · exact h.bindings x f' hf' b hb
    · exact hb
  · rw [if_neg hx] at hf
    exact h.bindings x f hf b hb

theorem Safe.modifyArray {a : Nat} {g : Array Value → Array Value} (h : s.Safe)
    (hres : ({ s with arrays := s.arrays.modify a g } : Store).Resolves)
    (hg : ∀ vs, ∀ v ∈ g vs, v ∈ vs ∨ v.kind?.isSome) :
    ({ s with arrays := s.arrays.modify a g } : Store).Safe := by
  refine ⟨hres, h.bindings, fun x vs hvs v hv => ?_, h.bodies⟩
  rw [array?_modify] at hvs
  by_cases hx : a = x
  · rw [if_pos hx] at hvs
    obtain ⟨vs', hvs', rfl⟩ := Option.map_eq_some_iff.mp hvs
    rcases hg vs' v hv with hv | hv
    · exact h.elements x vs' hvs' v hv
    · exact hv
  · rw [if_neg hx] at hvs
    exact h.elements x vs hvs v hv

end Store

/-- The value is of a known kind, and what it refers to is there. -/
def Value.Sound (s : Store) (v : Value) : Prop := v.kind?.isSome ∧ ∀ r ∈ v.refs, s.Has r

/-- A value that is no reference is sound in every store. -/
theorem Value.Plain.sound {s : Store} {v : Value} (h : v.Plain) : v.Sound s := by
  cases v with
  | unit | bool _ | int _ | float _ | str _ =>
      exact ⟨rfl, fun r hr => absurd hr List.not_mem_nil⟩
  | array _ | function _ | builtin _ _ | «foreign» _ _ | bare _ => exact h.elim

/-- Values are sound and the store is safe. -/
def Discipline.safety : Discipline where
  strict := True
  Inv := Store.Safe
  Good s v := v.Sound s
  Scope s e := s.Has (.frame e)
  Local s e _ := s.Has (.frame e)
  good_mono := fun hext h => ⟨h.1, fun r hr => hext.has (h.2 r hr)⟩
  scope_mono := fun hext h => hext.has h
  local_mono := fun hext h => hext.has h
  good_plain := Value.Plain.sound
  good_between := fun _ _ _ _ => ⟨rfl, fun _ hr => absurd hr List.not_mem_nil⟩
  good_length := fun _ => ⟨rfl, fun _ hr => absurd hr List.not_mem_nil⟩
  good_size := fun _ _ => ⟨rfl, fun _ hr => absurd hr List.not_mem_nil⟩
  good_lookup := by
    intro s e n v hs he hv
    obtain ⟨g, f, b, -, hf, hb, rfl⟩ := Store.binding_of_lookup hv
    refine ⟨hs.bindings g f hf b hb, fun r hr => hs.resolves (.frame g) r ?_⟩
    rw [Store.mem_refs_frame hf]
    exact List.mem_append_right _ (List.mem_flatMap.mpr ⟨b, hb, hr⟩)
  good_element := by
    intro s a v hs ha hv
    refine ⟨hs.elements a _ (Store.array?_of_mem hv) v hv, fun r hr => hs.resolves (.array a) r ?_⟩
    rw [Store.refs_array]
    exact List.mem_flatMap.mpr ⟨v, Array.mem_toList_iff.mpr hv, hr⟩
  closure := by
    intro s f c hs hf hc
    refine ⟨hs.resolves (.closure f) _ ?_, fun _ => hs.bodies f c hc⟩
    exact (Store.mem_refs_closure hc).mpr rfl
  addFrame := by
    intro s p hs hp
    have hnew := Store.has_addFrame s (some p)
    refine ⟨⟨?_, fun x f hf b hb => ?_, hs.elements, hs.bodies⟩, hnew, fun _ => hnew⟩
    · exact (Store.writes_addFrame s (some p)).resolves hs.resolves fun t ht =>
        List.mem_singleton.mp ht ▸ hp
    · rw [Store.frame?_addFrame] at hf
      split at hf
      · cases hf
        exact absurd hb List.not_mem_nil
      · exact hs.bindings x f hf b hb
  addArray := by
    intro s vs hs hvs
    refine ⟨⟨?_, hs.bindings, fun x ws hws v hv => ?_, hs.bodies⟩, rfl, fun r hr => ?_⟩
    · refine (Store.writes_addArray s vs).resolves hs.resolves fun t ht => ?_
      obtain ⟨v, hv, ht⟩ := List.mem_flatMap.mp ht
      exact (hvs v (Array.mem_toList_iff.mp hv)).2 t ht
    · rw [Store.array?_addArray] at hws
      split at hws
      · cases hws
        exact (hvs v hv).1
      · exact hs.elements x ws hws v hv
    · exact List.mem_singleton.mp hr ▸ Store.has_addArray s vs
  addClosure := by
    intro s c hs hc hbody
    refine ⟨⟨?_, hs.bindings, hs.elements, fun x d hd => ?_⟩, rfl, fun r hr => ?_⟩
    · exact (Store.writes_addClosure s c).resolves hs.resolves fun t ht =>
        List.mem_singleton.mp ht ▸ hc
    · rw [Store.closure?_addClosure] at hd
      split at hd
      · cases hd
        exact hbody trivial
      · exact hs.bodies x d hd
    · exact List.mem_singleton.mp hr ▸ Store.has_addClosure s c
  declare := by
    intro s e n v m hs _ hv
    have hres := (Store.writes_declare s e n v m).resolves hs.resolves hv.2
    refine hs.modifyFrame hres fun f b hb => ?_
    rcases Store.mem_declareIn hb with hb | rfl
    · exact .inl hb
    · exact .inr hv.1
  update := by
    intro s e n v g hs _ hv _
    have hres := (Store.writes_update s g n v).resolves hs.resolves hv.2
    refine hs.modifyFrame hres fun f b hb => ?_
    rcases Store.mem_updateIn hb with hb | rfl
    · exact .inl hb
    · exact .inr hv.1
  push := by
    intro s a v hs _ hv
    have hres := (Store.writes_push s a v).resolves hs.resolves hv.2
    refine hs.modifyArray hres fun vs w hw => ?_
    rcases Array.mem_push.mp hw with hw | rfl
    · exact .inl hw
    · exact .inr hv.1
  pop := by
    intro s a hs _
    have hres := (Store.writes_pop s a).resolves hs.resolves fun t ht =>
      absurd ht List.not_mem_nil
    exact hs.modifyArray hres fun vs w hw => .inl (Store.mem_of_mem_pop hw)
  setElement := by
    intro s a i v hs _ hv
    have hres := (Store.writes_setElement s a i v).resolves hs.resolves hv.2
    refine hs.modifyArray hres fun vs w hw => ?_
    rcases Array.mem_or_eq_of_mem_setIfInBounds hw with hw | rfl
    · exact .inl hw
    · exact .inr hv.1
  known := fun _ hv => hv.1
  present := by
    intro s f _ _ hf
    simpa [Store.Has, Store.object?] using hf.2 _ List.mem_cons_self

/-- A fresh store has nothing but a frame with the built-in functions. -/
theorem Store.fresh_safe : Store.fresh.Safe := by
  have hframe : ∀ e f, Store.fresh.frame? e = some f → f.parent = none ∧
      ∀ b ∈ f.bindings, ∃ which, b.value = .builtin which 0 := by
    intro e f hf
    cases e with
    | zero =>
        obtain rfl := Option.some.inj hf
        refine ⟨rfl, fun b hb => ?_⟩
        obtain ⟨which, -, rfl⟩ := List.mem_map.mp hb
        exact ⟨which, rfl⟩
    | succ e => simp [Store.fresh, Store.frame?] at hf
  refine ⟨fun r t ht => ?_, fun e f hf b hb => ?_, fun a vs hvs => ?_, fun f c hc => ?_⟩
  · cases r with
    | frame e =>
        cases hf : Store.fresh.frame? e with
        | none => simp [Store.refs, Store.object?, hf] at ht
        | some f =>
            obtain ⟨hparent, hbindings⟩ := hframe e f hf
            rw [Store.mem_refs_frame hf, Frame.refs, hparent] at ht
            obtain ⟨b, hb, ht⟩ := List.mem_flatMap.mp ht
            obtain ⟨which, hwhich⟩ := hbindings b hb
            rw [hwhich] at ht
            exact absurd ht List.not_mem_nil
    | array a => simp [Store.refs, Store.object?, Store.fresh, Store.array?] at ht
    | closure f => simp [Store.refs, Store.object?, Store.fresh, Store.closure?] at ht
  · obtain ⟨which, hwhich⟩ := (hframe e f hf).2 b hb
    rw [hwhich]
    rfl
  · simp [Store.fresh, Store.array?] at hvs
  · simp [Store.fresh, Store.closure?] at hc

namespace Session

/-- The store of the session is safe, and its root frame is there. -/
structure Safe (s : Session) : Prop where
  store : s.machine.store.Safe
  root : s.machine.store.Has (.frame Store.root)

variable {s : Session}

theorem fresh_safe (settings : Settings) : (fresh settings).Safe := ⟨Store.fresh_safe, rfl⟩

/-- Well-formed programs keep a session safe, whether they end well or not. -/
theorem Safe.runNodes {ns : List Node} (h : s.Safe)
    (hns : ∀ n ∈ ns, n.Formed (.statement false)) : (s.runNodes ns).2.Safe := by
  have hrun : Discipline.safety.Holds s.machine.store (runProgram s.settings ampleFuel ns)
      Discipline.safety.Good :=
    Discipline.holds_runProgram h.store h.root (fun _ => h.root) fun n hn _ => hns n hn
  have hends := hrun { s.machine with output := "", trace := "" } rfl
  simp only [Session.runNodes]
  generalize (runProgram s.settings ampleFuel ns).run.run _ = ended at hends
  rcases ended with ⟨_ | _, m⟩
  · exact ⟨hends.1, hends.2.1.has h.root⟩
  · exact ⟨hends.1, hends.2.1.has h.root⟩

/-- **A session stays safe**, whatever text it is given to run. -/
theorem Safe.run (h : s.Safe) (filename source : String) : (s.run filename source).2.Safe := by
  unfold Session.run
  cases hts : parseProgram filename source with
  | error r => exact h
  | ok ts =>
      have hformed := analyzeTrees_formed (parseProgram_shaped hts)
      dsimp only
      split
      · exact h
      · cases hns : analyzeTrees ts with
        | error e => exact h
        | ok ns =>
            rw [hns] at hformed
            exact h.runNodes hformed

/-- What a safe session has bound is sound. -/
theorem Safe.sound {b : Binding} (h : s.Safe) (hb : b ∈ s.bindings) :
    b.value.Sound s.machine.store := by
  obtain ⟨f, hf⟩ : ∃ f, s.machine.store.frame? Store.root = some f := by
    simpa [Store.Has, Store.object?, Option.isSome_iff_exists] using h.root
  have hb : b ∈ f.bindings := by
    have hmem := (List.mem_filter.mp hb).1
    simpa [Store.bindings, hf] using hmem
  refine ⟨h.store.bindings _ f hf b hb, fun r hr => h.store.resolves (.frame Store.root) r ?_⟩
  rw [Store.mem_refs_frame hf]
  exact List.mem_append_right _ (List.mem_flatMap.mpr ⟨b, hb, hr⟩)

end Session

end Ember
