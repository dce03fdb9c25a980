import Mathlib.Data.List.Find
import Ember.Proofs.Store.Alike

/-!
# Visibility — who sees a binding change

Frames enclose each other as a tree, and functions hold on to frames anywhere in it. So a binding
that is made or changed from one frame may be seen from many others, and from some of these another
binding of the same name hides it. What a name means is the binding in the innermost frame that has
one. Declaring and assigning change that exactly where the changed binding is the innermost one, and
nothing else.

* `Store.Open`, `Store.Sees`: a frame on the chain of another with no binding of a name in between.
* `Store.Rebinds`: a name has another binding where it is seen, and all else is as it was.
* `Run.assign`: what the evaluator does with the value of an assignment.
* `binding_effects`: what declaring and assigning change for all frames and names.
-/

namespace Ember

/-! ### Frames -/

namespace Frame

/-- A binding that is made is found under its name, and all others are found as before. -/
theorem find?_declareIn (b : Binding) (bs : List Binding) (k : String) :
    (declareIn b bs).find? (·.name == k)
      = if b.name = k then some b else bs.find? (·.name == k) := by
  induction bs with
  | nil => by_cases hb : b.name = k <;> simp [declareIn, hb]
  | cons a rest ih =>
      rw [declareIn]
      by_cases ha : a.name = b.name
      · by_cases hb : b.name = k <;> simp [ha, hb]
      · by_cases hk : a.name = k
        · have hb : b.name ≠ k := fun hb => ha (hk.trans hb.symm)
          simp [hk, hb, hb.symm]
        · simp [ha, hk, ih]

/-- A binding that is changed is found under its name with the new value. -/
theorem find?_updateIn (n : String) (v : Value) (bs : List Binding) (k : String) :
    (updateIn n v bs).find? (·.name == k) = if n = k
      then (bs.find? (·.name == k)).map fun b => { b with value := v }
      else bs.find? (·.name == k) := by
  induction bs with
  | nil => simp [updateIn]
  | cons a rest ih =>
      rw [updateIn]
      by_cases ha : a.name = n
      · by_cases hn : n = k <;> simp [ha, hn]
      · by_cases hk : a.name = k
        · have hn : n ≠ k := fun hn => ha (hk.trans hn.symm)
          simp [hk, hn, hn.symm]
        · simp [ha, hk, ih]

@[simp] theorem get?_declare (f : Frame) (n : String) (v : Value) (m : Bool) (k : String) :
    (f.declare n v m).get? k = if n = k then some ⟨n, v, m⟩ else f.get? k :=
  find?_declareIn ⟨n, v, m⟩ f.bindings k

@[simp] theorem get?_update (f : Frame) (n : String) (v : Value) (k : String) :
    (f.update n v).get? k
      = if n = k then (f.get? k).map fun b => { b with value := v } else f.get? k :=
  find?_updateIn n v f.bindings k

/-- A frame binds a name if it has a binding for it. -/
theorem isSome_get? (f : Frame) (k : String) : (f.get? k).isSome = f.binds k :=
  List.isSome_find?

end Frame

namespace Store

variable {s s' : Store} {e g G E : Nat} {n k : String} {v : Value} {m : Bool}

/-! ### What is seen -/

/-- Going outwards from the first frame, one comes to the second one before any other frame that
binds the name. -/
def Open (s : Store) (n : String) (G E : Nat) : Prop :=
  ∃ inner outer, s.chain G = inner ++ E :: outer ∧ ∀ h ∈ inner, s.binds n h = false

/-- Seen from the first frame, the second one is the innermost that binds the name. -/
def Sees (s : Store) (n : String) (G g : Nat) : Prop := s.Open n G g ∧ s.binds n g = true

/-- In the second store the name has a new value and a new flag, seen from the frames of which `P`
holds. All other names, and this one seen from elsewhere, are as they were. -/
structure Rebinds (s s' : Store) (n : String) (v : Value) (m : Bool) (P : Nat → Prop) : Prop where
  value : ∀ G, P G → s'.lookup G n = .ok v
  flag : ∀ G, P G → s'.isMutable G n = .ok m
  otherValue : ∀ G k, ¬ (k = n ∧ P G) → s'.lookup G k = s.lookup G k
  otherFlag : ∀ G k, ¬ (k = n ∧ P G) → s'.isMutable G k = s.isMutable G k

/-- The frame that is found for a name is the one that is seen. -/
theorem find?_eq_some_iff : s.find? G n = some g ↔ s.Sees n G g := by
  rw [find?, List.find?_eq_some_iff_append, Sees, Open, and_comm]
  simp only [Bool.not_eq_true']

/-- Where no frame is found, none on the chain binds the name. -/
theorem find?_eq_none_iff : s.find? G n = none ↔ ∀ h ∈ s.chain G, s.binds n h = false := by
  rw [find?, List.find?_eq_none]
  simp only [Bool.not_eq_true]

/-- Values and flags come from the innermost binding. -/
theorem rebinds_of_binding? {P : Nat → Prop} (b : Binding) (hv : b.value = v) (hm : b.mutable = m)
    (hseen : ∀ G, P G → s'.binding? G n = some b)
    (hother : ∀ G k, ¬ (k = n ∧ P G) → s'.binding? G k = s.binding? G k) :
    s.Rebinds s' n v m P where
  value G hG := by rw [lookup, hseen G hG, ← hv]
  flag G hG := by rw [isMutable, hseen G hG, ← hm]
  otherValue G k h := by rw [lookup, hother G k h, lookup]
  otherFlag G k h := by rw [isMutable, hother G k h, isMutable]

/-! ### Chains -/

/-- There are only frames on a chain. -/
theorem isSome_of_mem_chain (h : e ∈ s.chain G) : (s.frame? e).isSome := by
  suffices hfrom : ∀ steps G, e ∈ s.chainFrom steps G → (s.frame? e).isSome from hfrom _ _ h
  intro steps
  induction steps with
  | zero => simp [chainFrom]
  | succ steps ih =>
      intro G h
      rw [chainFrom] at h
      cases hf : s.frame? G with
      | none => simp [hf] at h
      | some f =>
          cases hp : f.parent with
          | none =>
              obtain rfl : e = G := by simpa [hf, hp] using h
              simp [hf]
          | some p =>
              rcases (by simpa [hf, hp] using h : e = G ∨ e ∈ s.chainFrom steps p) with rfl | h
              · simp [hf]
              · exact ih p h

/-- A change of bindings leaves the chains as they are. -/
theorem chain_modify {h : Frame → Frame} (hparent : ∀ f, (h f).parent = f.parent) (e G : Nat) :
    ({ s with frames := s.frames.modify e h } : Store).chain G = s.chain G := by
  suffices hfrom : ∀ steps G, ({ s with frames := s.frames.modify e h } : Store).chainFrom steps G
      = s.chainFrom steps G from hfrom _ _
  intro steps
  induction steps with
  | zero => exact fun _ => rfl
  | succ steps ih =>
      intro G
      simp only [chainFrom, frame?_modify, ih]
      by_cases he : e = G
      · cases hf : s.frame? G with
        | none => simp [he]
        | some f => simp [he, hparent]
      · simp [he]

/-- An assignment leaves the chains as they are. -/
theorem chain_update (s : Store) (g : Nat) (n : String) (v : Value) (G : Nat) :
    (s.update g n v).chain G = s.chain G :=
  chain_modify (h := (·.update n v)) (fun _ => rfl) g G

/-- So does a declaration. -/
theorem chain_declare (s : Store) (E : Nat) (n : String) (v : Value) (m : Bool) (G : Nat) :
    (s.declare E n v m).chain G = s.chain G :=
  chain_modify (h := (·.declare n v m)) (fun _ => rfl) E G

/-! ### Bindings in frames -/

/-- The binding of a name in a frame itself. -/
def bindingAt? (s : Store) (g : Nat) (n : String) : Option Binding :=
  (s.frame? g).bind (·.get? n)

/-- What a name means is the binding in the frame that is found for it. -/
theorem binding?_eq (s : Store) (G : Nat) (n : String) :
    s.binding? G n = (s.find? G n).bind fun g => s.bindingAt? g n := rfl

/-- A frame binds a name if it has a binding for it. -/
theorem binds_eq (s : Store) (n : String) (g : Nat) : s.binds n g = (s.bindingAt? g n).isSome := by
  rw [binds, bindingAt?]
  cases s.frame? g with
  | none => rfl
  | some f => exact (f.isSome_get? n).symm

/-- An assignment changes one binding in one frame. -/
theorem bindingAt?_update (s : Store) (g : Nat) (n : String) (v : Value) (e : Nat) (k : String) :
    (s.update g n v).bindingAt? e k = if g = e ∧ n = k
      then (s.bindingAt? e k).map fun b => { b with value := v }
      else s.bindingAt? e k := by
  rw [bindingAt?, bindingAt?, update, frame?_modify]
  by_cases he : g = e
  · cases hf : s.frame? e with
    | none => simp
    | some f => simp [he]
  · simp [he]

/-- A declaration makes one binding in one frame, if the frame is there. -/
theorem bindingAt?_declare (s : Store) (E : Nat) (n : String) (v : Value) (m : Bool) (e : Nat)
    (k : String) :
    (s.declare E n v m).bindingAt? e k = if (E = e ∧ n = k) ∧ (s.frame? e).isSome
      then some ⟨n, v, m⟩
      else s.bindingAt? e k := by
  rw [bindingAt?, bindingAt?, declare, frame?_modify]
  by_cases he : E = e
  · cases hf : s.frame? e with
    | none => simp
    | some f => simp [he]
  · simp [he]

/-! ### Assigning -/

/-- No frame starts or ceases to bind a name. -/
theorem find?_update (s : Store) (g : Nat) (n : String) (v : Value) (G : Nat) (k : String) :
    (s.update g n v).find? G k = s.find? G k := by
  have hbinds : (s.update g n v).binds k = s.binds k := by
    funext e
    rw [binds_eq, binds_eq, bindingAt?_update]
    split <;> simp
  rw [find?, find?, hbinds, chain_update]

/-- An assignment changes what a name means wherever the changed binding is the one seen. -/
theorem rebinds_update {b : Binding} (hb : s.bindingAt? g n = some b) (v : Value) :
    s.Rebinds (s.update g n v) n v b.mutable (s.Sees n · g) := by
  refine rebinds_of_binding? { b with value := v } rfl rfl (fun G hG => ?_) fun G k hother => ?_
  · rw [binding?_eq, find?_update, find?_eq_some_iff.mpr hG, Option.bind_some, bindingAt?_update,
      if_pos ⟨rfl, rfl⟩, hb, Option.map_some]
  · rw [binding?_eq, binding?_eq, find?_update]
    cases hg : s.find? G k with
    | none => rfl
    | some g' =>
        -- the frame seen from there is another one, or the name is
        have hne : ¬ (g = g' ∧ n = k) := by
          rintro ⟨rfl, rfl⟩
          exact hother ⟨rfl, find?_eq_some_iff.mp hg⟩
        rw [Option.bind_some, Option.bind_some, bindingAt?_update, if_neg hne]

/-- Some binding is seen, or no frame of the chain has one. -/
theorem sees_or_none (s : Store) (G : Nat) (n : String) :
    (∃ g b, s.Sees n G g ∧ s.bindingAt? g n = some b) ∨ ∀ h ∈ s.chain G, s.binds n h = false := by
  cases hg : s.find? G n with
  | none => exact .inr (find?_eq_none_iff.mp hg)
  | some g =>
      have hsees := find?_eq_some_iff.mp hg
      obtain ⟨b, hb⟩ := Option.isSome_iff_exists.mp ((s.binds_eq n g).symm.trans hsees.2)
      exact .inl ⟨g, b, hsees, hb⟩

/-- Whether a name may be assigned to is up to the binding that is seen. -/
theorem assignable_of_sees {b : Binding} (h : s.Sees n E g) (hb : s.bindingAt? g n = some b) :
    s.assignable E n = if b.mutable then .ok g else .error (.immutable n) := by
  have hflag : ((s.frame? g).bind (·.get? n)).any (·.mutable) = b.mutable := by
    rw [show (s.frame? g).bind (·.get? n) = some b from hb, Option.any_some]
  simp only [assignable, find?_eq_some_iff.mpr h, hflag]

/-- A name that nobody binds cannot be assigned to. -/
theorem assignable_of_none (h : ∀ x ∈ s.chain E, s.binds n x = false) :
    s.assignable E n = .error (.assignUndefined n) := by
  rw [assignable, find?_eq_none_iff.mpr h]

/-- What may be assigned to is a mutable binding that is seen. -/
theorem assignable_eq_ok (h : s.assignable E n = .ok g) :
    ∃ b, s.Sees n E g ∧ s.bindingAt? g n = some b ∧ b.mutable = true := by
  obtain ⟨hfind, f, b, hf, hb, hm⟩ := find?_of_assignable h
  exact ⟨b, find?_eq_some_iff.mp hfind, by rw [bindingAt?, hf, Option.bind_some, hb], hm⟩

/-- There are two reasons why a name cannot be assigned to. -/
theorem assignable_eq_error {f : Fault} (h : s.assignable E n = .error f) :
    f = .assignUndefined n ∨ f = .immutable n := by
  rcases s.sees_or_none E n with ⟨g, b, hsees, hb⟩ | hnone
  · rw [assignable_of_sees hsees hb] at h
    split at h
    · cases h
    · cases h
      exact .inr rfl
  · rw [assignable_of_none hnone] at h
    cases h
    exact .inl rfl

/-- The first reason is that no frame on the chain binds it. -/
theorem assignable_undefined_iff : s.assignable E n = .error (.assignUndefined n) ↔
    ∀ h ∈ s.chain E, s.binds n h = false := by
  refine ⟨fun h => ?_, assignable_of_none⟩
  rcases s.sees_or_none E n with ⟨g, b, hsees, hb⟩ | hnone
  · rw [assignable_of_sees hsees hb] at h
    split at h <;> cases h
  · exact hnone

/-- The second one is that the binding that is seen is not mutable. -/
theorem assignable_immutable_iff : s.assignable E n = .error (.immutable n) ↔
    ∃ g b, s.Sees n E g ∧ s.bindingAt? g n = some b ∧ b.mutable = false := by
  constructor
  · intro h
    rcases s.sees_or_none E n with ⟨g, b, hsees, hb⟩ | hnone
    · rw [assignable_of_sees hsees hb] at h
      split at h
      · cases h
      · rename_i hm
        exact ⟨g, b, hsees, hb, Bool.not_eq_true _ ▸ hm⟩
    · rw [assignable_of_none hnone] at h
      cases h
  · rintro ⟨g, b, hsees, hb, hm⟩
    rw [assignable_of_sees hsees hb, hm]
    rfl

/-! ### Declaring -/

/-- The first time that one comes to the frame counts. -/
theorem Open.first (h : s.Open n G E) :
    ∃ inner outer, s.chain G = inner ++ E :: outer ∧ E ∉ inner ∧
      ∀ h ∈ inner, s.binds n h = false := by
  obtain ⟨inner, outer, hchain, hinner⟩ := h
  by_cases hE : E ∈ inner
  · obtain ⟨as, bs, rfl, has⟩ := List.eq_append_cons_of_mem hE
    refine ⟨as, bs ++ E :: outer, by simp [hchain], has, fun x hx => ?_⟩
    exact hinner x (List.mem_append_left _ hx)
  · exact ⟨inner, outer, hchain, hE, hinner⟩

/-- A frame on the chain is open if none before it binds the name. -/
theorem open_of_mem {inner outer : List Nat} (hchain : s.chain G = inner ++ outer)
    (hE : E ∈ inner) (hinner : ∀ h ∈ inner, s.binds n h = false) : s.Open n G E := by
  obtain ⟨as, bs, rfl, -⟩ := List.eq_append_cons_of_mem hE
  exact ⟨as, bs ++ outer, by simp [hchain], fun x hx => hinner x (List.mem_append_left _ hx)⟩

theorem bindingAt?_declare_of_ne (h : ¬ (E = e ∧ n = k)) (v : Value) (m : Bool) :
    (s.declare E n v m).bindingAt? e k = s.bindingAt? e k := by
  rw [bindingAt?_declare, if_neg fun h' => h h'.1]

/-- A declaration does not matter to other names and other frames. -/
theorem binds_declare_of_ne (h : ¬ (E = e ∧ n = k)) (v : Value) (m : Bool) :
    (s.declare E n v m).binds k e = s.binds k e := by
  rw [binds_eq, binds_eq, bindingAt?_declare_of_ne h]

/-- Where one comes to the frame first, its new binding is the innermost one. -/
theorem binding?_declare_of_open (h : s.Open n G E) (v : Value) (m : Bool) :
    (s.declare E n v m).binding? G n = some ⟨n, v, m⟩ := by
  obtain ⟨inner, outer, hchain, hE, hinner⟩ := h.first
  have hthere : (s.frame? E).isSome := isSome_of_mem_chain (G := G) (by simp [hchain])
  have hnew : (s.declare E n v m).bindingAt? E n = some ⟨n, v, m⟩ := by
    rw [bindingAt?_declare, if_pos ⟨⟨rfl, rfl⟩, hthere⟩]
  have hfind : (s.declare E n v m).find? G n = some E := by
    refine find?_eq_some_iff.mpr ⟨⟨inner, outer, by rw [chain_declare, hchain], ?_⟩, ?_⟩
    · intro x hx
      have hne : ¬ (E = x ∧ n = n) := fun hEx => hE (hEx.1 ▸ hx)
      rw [binds_declare_of_ne hne]
      exact hinner x hx
    · rw [binds_eq, hnew, Option.isSome_some]
  rw [binding?_eq, hfind, Option.bind_some, hnew]

/-- From elsewhere, and for other names, the innermost binding is the one that it was. -/
theorem binding?_declare_of_not_open (h : ¬ (k = n ∧ s.Open n G E)) (v : Value) (m : Bool) :
    (s.declare E n v m).binding? G k = s.binding? G k := by
  have hkeep : ∀ e, ¬ (E = e ∧ n = k) →
      (s.declare E n v m).binds k e = s.binds k e ∧
        (s.declare E n v m).bindingAt? e k = s.bindingAt? e k := fun e he =>
    ⟨binds_declare_of_ne he v m, bindingAt?_declare_of_ne he v m⟩
  cases hg : s.find? G k with
  | some g =>
      obtain ⟨⟨inner, outer, hchain, hinner⟩, hbinds⟩ := find?_eq_some_iff.mp hg
      -- neither this frame nor one before it is the one that the name is declared in
      have hother : ∀ x ∈ g :: inner, ¬ (E = x ∧ n = k) := by
        rintro x hx ⟨rfl, rfl⟩
        refine h ⟨rfl, ?_⟩
        rcases List.mem_cons.mp hx with rfl | hx
        · exact ⟨inner, outer, hchain, hinner⟩
        · exact open_of_mem hchain hx hinner
      have hg' := hkeep g (hother g List.mem_cons_self)
      have hfind : (s.declare E n v m).find? G k = some g := by
        refine find?_eq_some_iff.mpr ⟨⟨inner, outer, by rw [chain_declare, hchain], ?_⟩, ?_⟩
        · intro x hx
          rw [(hkeep x (hother x (List.mem_cons_of_mem _ hx))).1]
          exact hinner x hx
        · rw [hg'.1, hbinds]
      rw [binding?_eq, binding?_eq, hfind, hg, Option.bind_some, Option.bind_some, hg'.2]
  | none =>
      have hnone := find?_eq_none_iff.mp hg
      have hother : ∀ x ∈ s.chain G, ¬ (E = x ∧ n = k) := by
        rintro x hx ⟨rfl, rfl⟩
        exact h ⟨rfl, open_of_mem (List.append_nil _).symm hx hnone⟩
      have hfind : (s.declare E n v m).find? G k = none := by
        refine find?_eq_none_iff.mpr fun x hx => ?_
        rw [chain_declare] at hx
        rw [(hkeep x (hother x hx)).1]
        exact hnone x hx
      rw [binding?_eq, binding?_eq, hfind, hg, Option.bind_none, Option.bind_none]

/-- A declaration changes what a name means wherever its frame is open. -/
theorem rebinds_declare (s : Store) (E : Nat) (n : String) (v : Value) (m : Bool) :
    s.Rebinds (s.declare E n v m) n v m (s.Open n · E) :=
  rebinds_of_binding? ⟨n, v, m⟩ rfl rfl (fun _ hG => binding?_declare_of_open hG v m)
    fun _ _ hother => binding?_declare_of_not_open hother v m

end Store

/-! ### Runs -/

/-- What becomes of the value of an assignment in a frame. -/
def Run.assign (e : Nat) (n : String) (v : Value) : Run Unit := do
  let g ← Run.ofExcept ((← Run.store).assignable e n)
  Run.modifyStore (·.update g n v)

/-- An assignment evaluates its right side first. -/
theorem exec_assign (cfg : Settings) (fuel : Nat) (n : String) (value : Node) (span : Option Span)
    (e : Nat) :
    exec cfg (fuel + 1) (.assign n value span) e = (do
      Run.traceLine cfg fun _ => "Executing: " ++ (Node.assign n value span).type
      Run.locate span do
        let v ← eval cfg fuel value e
        Run.assign e n v
        return .normal none) := by
  simp only [exec, Run.assign, bind_assoc]
  rfl

/-- An assignment fails without a change, or changes one binding. -/
theorem Run.run_assign (m : Machine) (e : Nat) (n : String) (v : Value) :
    (Run.assign e n v).run.run m = match m.store.assignable e n with
      | .ok g => (.ok (), { m with store := m.store.update g n v })
      | .error f => (.error (.fault f none), m) := by
  change ((do
    let g ← Run.ofExcept (m.store.assignable e n)
    Run.modifyStore (·.update g n v) : Run Unit).run.run m) = _
  cases m.store.assignable e n <;> rfl

/-- **What declaring and assigning change.** Assigning to a name from the frame `E` finds the
innermost frame that binds it.

* If the binding there is mutable, it gets the value. A name has the new value afterwards if it is
  this one and the same frame is the innermost that binds it, and else the value that it had.
* If it is not, or if there is none, that is the error, and nothing is changed.

A name that is declared in the frame `E` has the new value seen from the frames that have `E` on
their chain, with none before it that binds the name, and all else is as it was. Chains lead from a
frame to the one that encloses it, where frames come after those. -/
theorem binding_effects (m : Machine) (E : Nat) (n : String) (v : Value) (mutable : Bool) :
    let s := m.store
    let (result, m') := (Run.assign E n v).run.run m
    (∀ u, result = .ok u →
      ∃ g, s.Sees n E g ∧ s.Rebinds m'.store n v true (s.Sees n · g)) ∧
    (∀ halt, result = .error halt → m' = m ∧
      (halt = .fault (.assignUndefined n) none ∨ halt = .fault (.immutable n) none)) ∧
    (result = .error (.fault (.assignUndefined n) none) ↔
      ∀ h ∈ s.chain E, s.binds n h = false) ∧
    (result = .error (.fault (.immutable n) none) ↔
      ∃ g b, s.Sees n E g ∧ s.bindingAt? g n = some b ∧ b.mutable = false) ∧
    s.Rebinds (s.declare E n v mutable) n v mutable (s.Open n · E) ∧
    (s.Layered → ∀ e f, s.frame? e = some f → s.chain e = e :: f.parent.elim [] s.chain) := by
  dsimp only
  rw [Run.run_assign]
  refine ⟨?_, ?_, ?_, ?_, Store.rebinds_declare ..,
    fun hs e f => Store.chain_of_frame hs⟩
  · rintro u hu
    cases hg : m.store.assignable E n with
    | error f => simp [hg] at hu
    | ok g =>
        obtain ⟨b, hsees, hb, hm⟩ := Store.assignable_eq_ok hg
        exact ⟨g, hsees, hm ▸ Store.rebinds_update hb v⟩
  · rintro halt hhalt
    cases hg : m.store.assignable E n with
    | ok g => simp [hg] at hhalt
    | error f =>
        obtain rfl : Halt.fault f none = halt := by simpa [hg] using hhalt
        refine ⟨rfl, ?_⟩
        rcases Store.assignable_eq_error hg with rfl | rfl
        · exact .inl rfl
        · exact .inr rfl
  · rw [← Store.assignable_undefined_iff]
    cases m.store.assignable E n <;> simp
  · rw [← Store.assignable_immutable_iff]
    cases m.store.assignable E n <;> simp

/-- Two frames stand side by side in the root frame, and one of them binds the same name. From the
other one an assignment reaches the root frame, and a frame inside the first does not notice. -/
theorem sideBySide_effects :
    let s : Store := {
      frames := #[⟨none, [⟨"x", .int 1, true⟩]⟩, ⟨some 0, []⟩, ⟨some 0, [⟨"x", .int 2, false⟩]⟩,
        ⟨some 2, []⟩]
      arrays := #[]
      closures := #[] }
    let s' := ((Run.assign 1 "x" (.int 5)).run.run ⟨s, "", "", 0⟩).2.store
    s'.lookup 0 "x" = .ok (.int 5) ∧ s'.lookup 1 "x" = .ok (.int 5) ∧
      s'.lookup 3 "x" = s.lookup 3 "x" := by
  intro s s'
  obtain ⟨g, hsees, hrebinds⟩ := (binding_effects ⟨s, "", "", 0⟩ 1 "x" (.int 5) true).1 () rfl
  obtain rfl : 0 = g := Option.some.inj (Store.find?_eq_some_iff.mpr hsees)
  refine ⟨hrebinds.value 0 (Store.find?_eq_some_iff.mp rfl), hrebinds.value 1 hsees, ?_⟩
  refine hrebinds.otherValue 3 "x" ?_
  rintro ⟨-, hsees'⟩
  have hfind : s.find? 3 "x" = some 2 := rfl
  rw [Store.find?_eq_some_iff.mpr hsees'] at hfind
  cases hfind

end Ember
