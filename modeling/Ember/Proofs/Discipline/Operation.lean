import Mathlib.Data.List.Basic
import Ember.Proofs.Discipline

/-!
# Discipline — operators, built-in functions and the store

What the operations that do not run nodes give and which faults they end in, and from that that
each of them keeps every discipline.

* `Operates`: an operation gives a plain value or a fault that programs can run into.
* `Discipline.holds_builtin`: calling a built-in function.
* `Discipline.holds_closure`, `Discipline.holds_element`: the accesses that could fail.
-/

namespace Ember

/-- The unexpected faults are those of two kinds. -/
theorem Fault.expected_iff {f : Fault} :
    f.Expected ↔ f.kind ≠ .structural ∧ f.kind ≠ .general := by
  unfold Fault.Expected
  cases f.kind <;> decide

/-! ### Operators -/

/-- A number that is let through is the number itself, and in range. -/
theorem confine_eq_ok {i j : Int} {op : String} (h : confine i op = .ok j) :
    j = i ∧ intMin ≤ j ∧ j ≤ intMax := by
  unfold confine at h
  split at h
  · cases h; exact ⟨rfl, ‹_›⟩
  · cases h

/-- A number that is not let through is reported as an overflow. -/
theorem confine_eq_error {i : Int} {op : String} {f : Fault} (h : confine i op = .error f) :
    f = .overflow op := by
  unfold confine at h
  split at h
  · cases h
  · cases h; rfl

/-- What an operation on values gives: a plain value or a fault that programs can run into. -/
def Operates (x : Except Fault Value) : Prop :=
  (∀ v, x = .ok v → v.Plain) ∧ ∀ f, x = .error f → f.Expected

theorem operates_ok {v : Value} (h : v.Plain) : Operates (.ok v) :=
  ⟨fun _ hw => by cases hw; exact h, fun _ hf => by cases hf⟩

theorem operates_error {f : Fault} (h : f.Expected) : Operates (.error f) :=
  ⟨fun _ hw => (by cases hw), fun _ hf => by cases hf; exact h⟩

/-- A number that is confined to the range, as a value. -/
theorem operates_confine (i : Int) (op : String) :
    Operates ((confine i op).map .int) := by
  cases h : confine i op with
  | ok j => exact operates_ok (confine_eq_ok h).2
  | error f =>
      rw [confine_eq_error h]
      exact operates_error (Fault.expected_iff.mpr (by simp [Fault.kind]))

/-- Division by zero and overflow are what can go wrong with two integers. -/
theorem Arithmetic.ints_operates (op : Arithmetic) (x y : Int) : Operates (op.ints x y) := by
  unfold Arithmetic.ints
  split
  · exact operates_error (Fault.expected_iff.mpr (by simp [Fault.kind]))
  · exact operates_confine _ _

/-- With numbers of which one is floating-point only division by zero can go wrong. -/
theorem Arithmetic.floats_operates (op : Arithmetic) (l r : Kind) (x y : Float) :
    Operates (op.floats l r x y) := by
  unfold Arithmetic.floats
  split
  · exact operates_error (Fault.expected_iff.mpr (by simp [Fault.kind]))
  · split
    · exact operates_error (Fault.expected_iff.mpr (by simp [Fault.kind]))
    · exact operates_ok trivial

/-- An arithmetic operator gives a plain value or an expected fault. -/
theorem Arithmetic.apply_operates (op : Arithmetic) (x y : Value) : Operates (op.apply x y) := by
  unfold Arithmetic.apply
  split
  · exact operates_ok trivial
  · unfold Arithmetic.numbers
    split
    · exact Arithmetic.ints_operates ..
    · exact Arithmetic.floats_operates ..
    · exact Arithmetic.floats_operates ..
    · exact Arithmetic.floats_operates ..
    · exact operates_error (Fault.expected_iff.mpr (by simp [Fault.kind]))

/-- So does a comparison. -/
theorem Comparison.apply_operates (op : Comparison) (x y : Value) : Operates (op.apply x y) := by
  unfold Comparison.apply
  split
  · exact operates_ok trivial
  · split
    · exact operates_ok trivial
    · exact operates_error (Fault.expected_iff.mpr (by simp [Fault.kind]))

/-- So does every binary operator, whatever the store is. -/
theorem binaryOperator?_operates {op : String} {f : Store → Value → Value → Except Fault Value}
    (h : binaryOperator? op = some f) (s : Store) (x y : Value) : Operates (f s x y) := by
  unfold binaryOperator? at h
  split at h <;> cases h
  · exact Arithmetic.apply_operates .add x y
  · exact Arithmetic.apply_operates .sub x y
  · exact Arithmetic.apply_operates .mul x y
  · exact Arithmetic.apply_operates .div x y
  · exact Arithmetic.apply_operates .mod x y
  · exact operates_ok trivial
  · exact operates_ok trivial
  · exact Comparison.apply_operates .lt x y
  · exact Comparison.apply_operates .gt x y
  · exact Comparison.apply_operates .le x y
  · exact Comparison.apply_operates .ge x y

/-- So does every prefix operator. -/
theorem unaryOperator?_operates {op : String} {f : Value → Except Fault Value}
    (h : unaryOperator? op = some f) (x : Value) : Operates (f x) := by
  unfold unaryOperator? at h
  split at h <;> cases h
  · unfold Value.negate
    split
    · exact operates_confine _ _
    · exact operates_ok trivial
    · exact operates_error (Fault.expected_iff.mpr (by simp [Fault.kind]))
  · unfold Value.complement
    split
    · exact operates_ok trivial
    · exact operates_error (Fault.expected_iff.mpr (by simp [Fault.kind]))

/-! ### Arguments, names and positions -/

/-- A value that is called an array is one. -/
theorem Value.eq_array {v : Value} (hk : v.kind?.isSome)
    (h : Kind.array.name = v.kindName) : ∃ a, v = .array a := by
  cases v <;> simp_all [Value.kind?, Value.kindName, Kind.name]

/-- A value that is called an integer is one. -/
theorem Value.eq_int {v : Value} (hk : v.kind?.isSome)
    (h : Kind.int.name = v.kindName) : ∃ i, v = .int i := by
  cases v <;> simp_all [Value.kind?, Value.kindName, Kind.name]

/-- A check for one argument lets one argument of the right kind through. -/
theorem checkArguments_one {f : String} {args : List Value} {k : Option String}
    (h : Value.checkArguments f args [k] = .ok ()) :
    ∃ x, args = [x] ∧ ∀ n ∈ k, n = x.kindName := by
  unfold Value.checkArguments at h
  split at h
  · cases h
  · rename_i hlen
    obtain ⟨x, rfl⟩ := List.length_eq_one_iff.mp (not_not.mp hlen)
    refine ⟨x, rfl, fun n hn => ?_⟩
    cases hn
    by_contra hne
    simp [hne] at h

/-- A check for two arguments lets two of the right kinds through. -/
theorem checkArguments_two {f : String} {args : List Value} {k l : Option String}
    (h : Value.checkArguments f args [k, l] = .ok ()) :
    ∃ x y, args = [x, y] ∧ (∀ n ∈ k, n = x.kindName) ∧ ∀ n ∈ l, n = y.kindName := by
  unfold Value.checkArguments at h
  split at h
  · cases h
  · rename_i hlen
    obtain ⟨x, y, rfl⟩ := List.length_eq_two.mp (not_not.mp hlen)
    refine ⟨x, y, rfl, fun n hn => ?_, fun n hn => ?_⟩
    · cases hn
      by_contra hne
      simp [hne] at h
    · cases hn
      by_contra hne
      cases k with
      | none => simp [hne] at h
      | some m =>
          by_cases hm : m = x.kindName
          · simp [hne, hm] at h
          · simp [hm] at h

/-- Arguments of the wrong number or kind are an expected fault. -/
theorem checkArguments_expected {f : String} {args : List Value} {ks : List (Option String)}
    {x : Fault} (h : Value.checkArguments f args ks = .error x) : x.Expected := by
  unfold Value.checkArguments at h
  split at h
  · cases h
    exact Fault.expected_iff.mpr (by simp [Fault.kind])
  · dsimp only at h
    split at h
    · cases h
      exact Fault.expected_iff.mpr (by simp [Fault.kind])
    · cases h

/-- A name that is not bound is an expected fault. -/
theorem lookup_expected {s : Store} {e : Nat} {n : String} {f : Fault}
    (h : s.lookup e n = .error f) : f.Expected := by
  unfold Store.lookup at h
  split at h
  · cases h
  · cases h
    exact Fault.expected_iff.mpr (by simp [Fault.kind])

/-- So is a name that cannot be assigned to. -/
theorem assignable_expected {s : Store} {e : Nat} {n : String} {f : Fault}
    (h : s.assignable e n = .error f) : f.Expected := by
  unfold Store.assignable at h
  split at h
  · cases h
    exact Fault.expected_iff.mpr (by simp [Fault.kind])
  · split at h
    · cases h
    · cases h
      exact Fault.expected_iff.mpr (by simp [Fault.kind])

/-- A range has the integers between its bounds, the upper one left out. -/
theorem mem_intRange {v : Value} {lo hi : Int} (h : v ∈ intRange lo hi) :
    ∃ i, v = .int i ∧ lo ≤ i ∧ i < hi := by
  simp only [intRange, Array.mem_ofFn] at h
  obtain ⟨i, rfl⟩ := h
  exact ⟨lo + i.val, rfl, by omega, by omega⟩

/-- An index that is resolved names an element that is there. -/
theorem resolveIndex_eq_ok {s : Store} {t i : Value} {a n : Nat}
    (h : resolveIndex s t i = .ok (a, n)) :
    t = .array a ∧ n < (s.elements a).size := by
  unfold resolveIndex at h
  split at h
  · split at h
    · dsimp only at h
      split at h
      · cases h
        exact ⟨rfl, by omega⟩
      · cases h
    · cases h
  · cases h

/-- An index that is not resolved is an expected fault. -/
theorem resolveIndex_expected {s : Store} {t i : Value} {f : Fault}
    (h : resolveIndex s t i = .error f) :
    f.Expected := by
  unfold resolveIndex at h
  split at h
  · split at h
    · dsimp only at h
      split at h
      · cases h
      · cases h
        exact Fault.expected_iff.mpr (by simp [Fault.kind])
    · cases h
      exact Fault.expected_iff.mpr (by simp [Fault.kind])
  · cases h
    exact Fault.expected_iff.mpr (by simp [Fault.kind])

namespace Discipline

variable {D : Discipline} {limit : Nat} {s : Store} {e : Nat}

/-- What an operation gives is plain, and so it is good. -/
theorem holds_operates {x : Except Fault Value} (hs : D.Inv s) (h : Operates x) :
    D.Holds s (Run.ofExcept x) D.Good :=
  holds_ofExcept hs (fun v hv => D.good_plain (h.1 v hv)) fun f hf _ => h.2 f hf

/-- A condition is decided without touching the store. -/
theorem holds_decision (hs : D.Inv s) (what : String) (v : Value) :
    D.Holds s (Run.ofExcept (v.decision what)) fun s' _ => s' = s := by
  refine holds_ofExcept hs (fun _ _ => rfl) fun f hf _ => ?_
  unfold Value.decision at hf
  split at hf
  · cases hf
  · cases hf
    exact Fault.expected_iff.mpr (by simp [Fault.kind])

/-! ### Allocation -/

/-- A new frame is within the scope of the frame around it, and binds nothing. -/
theorem holds_newFrame (hs : D.Inv s) (he : D.Scope s e) :
    D.Holds s (Run.newFrame e) fun s' x => D.Scope s' x ∧ ∀ n, D.Local s' x n := by
  obtain ⟨hinv, hscope, hlocal⟩ := D.addFrame hs he
  exact holds_allocate hinv (Store.writes_addFrame s (some e)).toExtends ⟨hscope, hlocal⟩

/-- An array of good values is good. -/
theorem holds_newArray {vs : Array Value} (hs : D.Inv s) (hvs : ∀ v ∈ vs, D.Good s v) :
    D.Holds s (Run.newArray vs) D.Good := by
  obtain ⟨hinv, hgood⟩ := D.addArray hs hvs
  refine Holds.bind (Q := fun s' a => D.Good s' (.array a))
    (holds_allocate hinv (Store.writes_addArray s vs).toExtends hgood) fun s' a hs' _ ha => ?_
  exact holds_pure hs' ha

/-- A function is good if its body fits and its frame is in scope. -/
theorem holds_newFunction {c : Closure} (hs : D.Inv s) (hc : D.Scope s c.frame)
    (hb : D.Fits (.block true) c.body) : D.Holds s (Run.newFunction c) D.Good := by
  obtain ⟨hinv, hgood⟩ := D.addClosure hs hc hb
  refine Holds.bind (Q := fun s' f => D.Good s' (.function f))
    (holds_allocate hinv (Store.writes_addClosure s c).toExtends hgood) fun s' f hs' _ hf => ?_
  exact holds_pure hs' hf

/-- A binding is made in a frame that is local to the code. -/
theorem holds_declare {n : String} {v : Value} {m : Bool} (hs : D.Inv s) (he : D.Local s e n)
    (hv : D.Good s v) : D.Holds s (Run.modifyStore (·.declare e n v m)) fun _ _ => True :=
  holds_modifyStore (D.declare hs he hv) (Store.writes_declare s e n v m).toExtends trivial

/-- The parameters are bound one after the other in the frame of the call. -/
theorem holds_bindParameters {params : List String} {args : List Value} (hs : D.Inv s)
    (he : ∀ n, D.Local s e n) (hargs : ∀ v ∈ args, D.Good s v) :
    D.Holds s (bindParameters e params args) fun _ _ => True := by
  unfold bindParameters
  induction params generalizing s args with
  | nil => exact holds_pure hs trivial
  | cons p params ih =>
      cases args with
      | nil => exact holds_pure hs trivial
      | cons v args =>
          refine Holds.bind (holds_declare hs (he p) (hargs v List.mem_cons_self))
            fun s' _ hs' hext _ => ?_
          refine ih hs' (fun n => D.local_mono hext (he n)) fun w hw => ?_
          exact D.good_mono hext (hargs w (List.mem_cons_of_mem _ hw))

/-! ### Accesses -/

/-- A check that ends in a fault if it fails. -/
theorem holds_check {α : Type} {p : Prop} [Decidable p] {f : Fault} {k : Unit → Run α}
    {Q : Store → α → Prop} (hs : D.Inv s) (hf : f.Expected) (hk : D.Holds s (k ()) Q) :
    D.Holds s (if p then Run.fault f >>= k else k ()) Q := by
  split
  · exact Holds.bind (Q := fun _ _ => False) (holds_fault hs fun _ => hf) fun _ _ _ _ h => h.elim
  · exact hk

/-- A good function can be found, and its body fits where it was made. -/
theorem holds_closure {f : Nat} (hs : D.Inv s) (hf : D.Good s (.function f)) :
    D.Holds s (Run.closure f) fun s' c =>
      s' = s ∧ D.Scope s c.frame ∧ D.Fits (.block true) c.body := by
  refine holds_store ?_
  cases hc : s.closure? f with
  | none => exact holds_fault hs fun hstrict => absurd (D.present hstrict hs hf) (by simp [hc])
  | some c => exact holds_pure hs ⟨rfl, D.closure hs hf hc⟩

/-- An element of a good array is good. -/
theorem holds_element {a i : Nat} (hs : D.Inv s) (ha : D.Good s (.array a))
    (hi : i < (s.elements a).size) :
    D.Holds s (Run.element a i) fun s' v => s' = s ∧ D.Good s v := by
  refine holds_store ?_
  rw [Array.getElem?_eq_getElem hi]
  exact holds_pure hs ⟨rfl, D.good_element hs ha (Array.getElem_mem hi)⟩

/-- A good value takes the place of an element. -/
theorem holds_replaceElement {a i : Nat} {v : Value} (hs : D.Inv s) (ha : D.Good s (.array a))
    (hi : i < (s.elements a).size) (hv : D.Good s v) :
    D.Holds s (Run.replaceElement a i v) fun _ _ => True := by
  refine (holds_element hs ha hi).bind fun s' _ _ _ h => ?_
  obtain ⟨rfl, -⟩ := h
  exact holds_modifyStore (D.setElement hs ha hv) (Store.writes_setElement s' a i v).toExtends
    trivial

/-- An index is resolved without touching the store. -/
theorem holds_resolveIndex {t i : Value} (hs : D.Inv s) :
    D.Holds s (Run.ofExcept (resolveIndex s t i)) fun s' p =>
      s' = s ∧ t = .array p.1 ∧ p.2 < (s.elements p.1).size :=
  holds_ofExcept hs (fun _ h => ⟨rfl, resolveIndex_eq_ok h⟩) fun _ h _ => resolveIndex_expected h

/-! ### Built-in functions -/

/-- What is done for each of several values is done in a store that is still in order. -/
theorem holds_mapM {α β : Type} {f : α → Run β} {xs : List α} (hs : D.Inv s)
    (hf : ∀ s' a, D.Inv s' → D.Holds s' (f a) fun _ _ => True) :
    D.Holds s (xs.mapM f) fun _ _ => True := by
  induction xs generalizing s with
  | nil => exact holds_pure hs trivial
  | cons x xs ih =>
      rw [List.mapM_cons]
      refine (hf s x hs).bind fun s₁ b hs₁ _ _ => ?_
      refine (ih hs₁).bind fun s₂ bs hs₂ _ _ => ?_
      exact holds_pure hs₂ trivial

/-- The last element of a good array is good, and goes. -/
theorem holds_pop {a : Nat} (hs : D.Inv s) (ha : D.Good s (.array a)) :
    D.Holds s (Builtin.perform .pop limit [.array a]) D.Good := by
  refine holds_store ?_
  cases hv : (s.elements a).back? with
  | none => exact holds_fault hs fun _ => Fault.expected_iff.mpr (by simp [Fault.kind])
  | some v =>
      have hgood : D.Good s v := D.good_element hs ha (Array.mem_of_back? hv)
      have hext := (Store.writes_pop s a).toExtends
      refine Holds.bind (Q := fun s' _ => D.Good s' v)
        (holds_modifyStore (D.pop hs ha) hext (D.good_mono hext hgood)) fun s' _ hs' _ hv' => ?_
      exact holds_pure hs' hv'

/-- The builtins that only look at one value. -/
theorem holds_perform_one {b : Builtin} {v : Value} (hb : b = .len ∨ b = .str ∨ b = .type)
    (hs : D.Inv s) (hv : D.Good s v) : D.Holds s (b.perform limit [v]) D.Good := by
  rcases hb with rfl | rfl | rfl
  · cases v with
    | array a => exact holds_store (holds_pure hs (D.good_size hs hv))
    | str t => exact holds_pure hs (D.good_length hv)
    | unit | bool _ | int _ | float _ | function _ | builtin _ _ | «foreign» _ _ | bare _ =>
        exact holds_fault hs fun _ => Fault.expected_iff.mpr (by simp [Fault.kind])
  · refine holds_store ?_
    refine Holds.bind (Q := fun _ _ => True) (holds_ofShow hs fun _ _ => trivial)
      fun _ t hs' _ _ => ?_
    exact holds_pure hs' (D.good_plain trivial)
  · exact holds_pure hs (D.good_plain trivial)

/-- What is traced is of no account, but showing the arguments may fail. -/
theorem holds_traceCall (hs : D.Inv s) (cfg : Settings) (name : String) (args : List Value) :
    D.Holds s (traceCall cfg name args) fun _ _ => True := by
  unfold traceCall
  split
  · refine Holds.bind (Q := fun _ _ => True) (holds_store ?_) fun s₁ line hs₁ _ _ => ?_
    · refine Holds.bind (Q := fun _ _ => True) (holds_mapM hs fun s' v hs' => ?_)
        fun s₁ shown hs₁ _ _ => holds_pure hs₁ trivial
      exact holds_ofShow hs' fun _ _ => trivial
    · exact (holds_traceLine hs₁ cfg _).mono fun _ _ _ _ => trivial
  · exact holds_pure hs trivial

/-- All arguments are shown before anything is printed. -/
theorem holds_print_all {args : List Value} (hs : D.Inv s) :
    D.Holds s (Builtin.perform .print limit args) D.Good := by
  refine holds_store ?_
  refine Holds.bind (Q := fun _ _ => True) (holds_mapM hs fun s' v hs' => ?_)
    fun s₁ parts hs₁ _ _ => ?_
  · exact holds_ofShow hs' fun _ _ => trivial
  · refine (holds_print hs₁ _).bind fun s₂ _ hs₂ _ _ => ?_
    exact holds_pure hs₂ (D.good_plain trivial)

/-- The arguments of a built-in function are checked before it looks at them. -/
theorem holds_builtin {b : Builtin} {args : List Value} (hs : D.Inv s)
    (hargs : ∀ v ∈ args, D.Good s v) : D.Holds s (b.apply args limit) D.Good := by
  have hcheck : ∀ {ks : List (Option String)}, b.signature? = some ks →
      (Value.checkArguments b.name args ks = .ok () → D.Holds s (b.perform limit args) D.Good) →
      D.Holds s (b.apply args limit) D.Good := by
    intro ks hks hok
    unfold Builtin.apply
    simp only [hks]
    refine Holds.bind (Q := fun s' _ => s' = s ∧ Value.checkArguments b.name args ks = .ok ())
      (holds_ofExcept hs (fun _ h => ⟨rfl, h⟩) fun f hf _ => checkArguments_expected hf)
      fun s' _ _ _ h => ?_
    obtain ⟨rfl, h⟩ := h
    exact hok h
  cases b with
  | print => exact holds_print_all hs
  | len | str | type =>
      refine hcheck rfl fun h => ?_
      obtain ⟨x, rfl, -⟩ := checkArguments_one h
      exact holds_perform_one (by simp) hs (hargs x List.mem_cons_self)
  | push =>
      refine hcheck rfl fun h => ?_
      obtain ⟨x, y, rfl, hx, -⟩ := checkArguments_two h
      have hgx := hargs x List.mem_cons_self
      have hgy := hargs y (List.mem_cons_of_mem _ List.mem_cons_self)
      cases x with
      | array a =>
          have hext := (Store.writes_push s a y).toExtends
          refine Holds.bind (Q := fun _ _ => True)
            (holds_modifyStore (D.push hs hgx hgy) hext trivial) fun s' _ hs' _ _ => ?_
          exact holds_pure hs' (D.good_plain trivial)
      -- a value that is called an array is one, if all values are of known kinds
      | unit | bool _ | int _ | float _ | str _ | function _ | builtin _ _ | «foreign» _ _
      | bare _ =>
          exact holds_fault hs fun hstrict =>
            absurd (Value.eq_array (D.known hstrict hgx) (hx _ rfl)) (by simp)
  | pop =>
      refine hcheck rfl fun h => ?_
      obtain ⟨x, rfl, hx⟩ := checkArguments_one h
      have hgx := hargs x List.mem_cons_self
      cases x with
      | array a => exact holds_pop hs hgx
      | unit | bool _ | int _ | float _ | str _ | function _ | builtin _ _ | «foreign» _ _
      | bare _ =>
          exact holds_fault hs fun hstrict =>
            absurd (Value.eq_array (D.known hstrict hgx) (hx _ rfl)) (by simp)
  | range =>
      refine hcheck rfl fun h => ?_
      obtain ⟨x, y, rfl, hx, hy⟩ := checkArguments_two h
      have hgx := hargs x List.mem_cons_self
      have hgy := hargs y (List.mem_cons_of_mem _ List.mem_cons_self)
      cases x with
      | int i =>
          cases y with
          | int j =>
              refine holds_newArray hs fun v hv => ?_
              obtain ⟨k, rfl, hlo, hhi⟩ := mem_intRange hv
              exact D.good_between hgx hgy hlo hhi
          | unit | bool _ | float _ | str _ | array _ | function _ | builtin _ _ | «foreign» _ _
          | bare _ =>
              exact holds_fault hs fun hstrict =>
                absurd (Value.eq_int (D.known hstrict hgy) (hy _ rfl)) (by simp)
      | unit | bool _ | float _ | str _ | array _ | function _ | builtin _ _ | «foreign» _ _
      | bare _ =>
          exact holds_fault hs fun hstrict =>
            absurd (Value.eq_int (D.known hstrict hgx) (hx _ rfl)) (by simp)

end Discipline

end Ember
