import Ember.Eval

/-!
# Store — stores with some parts the same

What is looked up, shown or compared in a store depends on some of its parts only. Where these are
the same in two stores, so is what is found.

* `Store.lookup_congr`, `Store.assignable_congr`: names, if frames are the same.
* `Store.showAt_congr`: values as they are shown, if arrays are the same and functions have the same
  names.
* `Store.equal_congr`: values that are compared, if arrays are the same.
* `binaryOperator?_congr`, `resolveIndex_congr`: operators and indices.
-/

namespace Ember

namespace Store

variable {s s' : Store}

/-! ### Names -/

theorem frame?_congr (hframes : s'.frames = s.frames) : s'.frame? = s.frame? := by
  funext e
  rw [frame?, frame?, hframes]

/-- The chain of a frame is followed through frames alone. -/
theorem chainFrom_congr (hframes : s'.frames = s.frames) (steps e : Nat) :
    s'.chainFrom steps e = s.chainFrom steps e := by
  induction steps generalizing e with
  | zero => rfl
  | succ steps ih => simp only [chainFrom, frame?_congr hframes, ih]

/-- So a name is bound in the same frame, -/
theorem find?_congr (hframes : s'.frames = s.frames) (e : Nat) (name : String) :
    s'.find? e name = s.find? e name := by
  have hbinds : s'.binds name = s.binds name := by
    funext e
    rw [binds, binds, frame?_congr hframes]
  rw [find?, find?, chain, chain, chainFrom_congr hframes, hbinds]

/-- has the same value, -/
theorem lookup_congr (hframes : s'.frames = s.frames) (e : Nat) (name : String) :
    s'.lookup e name = s.lookup e name := by
  rw [lookup, lookup, binding?, binding?, find?_congr hframes, frame?_congr hframes]

/-- and may be assigned to in the same way. -/
theorem assignable_congr (hframes : s'.frames = s.frames) (e : Nat) (name : String) :
    s'.assignable e name = s.assignable e name := by
  rw [assignable, assignable, find?_congr hframes, frame?_congr hframes]

/-! ### Values -/

theorem elements_congr (harrays : s'.arrays = s.arrays) (a : Nat) :
    s'.elements a = s.elements a := by
  rw [elements, elements, harrays]

/-- Values are shown alike if arrays are the same and functions have the same names. -/
theorem showAt_congr (harrays : s'.arrays = s.arrays)
    (hnames : ∀ f nameless, s'.closureName f nameless = s.closureName f nameless) (steps : Nat)
    (path : List Nat) (nested : Bool) (v : Value) :
    s'.showAt steps path nested v = s.showAt steps path nested v := by
  induction steps generalizing path nested v with
  | zero =>
      cases v with
      | function f => simp only [showAt, hnames]
      | _ => rfl
  | succ steps ih =>
      cases v with
      | function f => simp only [showAt, hnames]
      | array a =>
          have hparts : s'.showAt steps (a :: path) true = s.showAt steps (a :: path) true :=
            funext (ih _ _)
          simp only [showAt, elements, harrays, hparts]
      | _ => rfl

/-- Values are compared alike if arrays are the same. -/
theorem equalAt_congr (harrays : s'.arrays = s.arrays) (steps : Nat) (path : List (Nat × Nat))
    (x y : Value) : s'.equalAt steps path x y = s.equalAt steps path x y := by
  have helements : s'.elements = s.elements := funext (elements_congr harrays)
  induction steps generalizing path x y with
  | zero =>
      cases x with
      | array a =>
          cases y with
          | array b => simp only [equalAt, helements]
          | _ => rfl
      | _ => rfl
  | succ steps ih =>
      cases x with
      | array a =>
          cases y with
          | array b => simp only [equalAt, helements, ih]
          | _ => rfl
      | _ => rfl

/-- Equality of values looks at arrays alone. -/
theorem equal_congr (harrays : s'.arrays = s.arrays) (x y : Value) :
    s'.equal x y = s.equal x y := by
  rw [equal, equal, harrays, equalAt_congr harrays]

end Store

/-! ### Operators -/

variable {s s' : Store}

/-- So do the binary operators, of which only equality looks at the store. -/
theorem binaryOperator?_congr (harrays : s'.arrays = s.arrays) {op : String}
    {f : Store → Value → Value → Except Fault Value} (h : binaryOperator? op = some f)
    (x y : Value) : f s' x y = f s x y := by
  unfold binaryOperator? at h
  split at h <;> cases h <;> simp only [Store.equal_congr harrays]

/-- An index is checked against the length of an array. -/
theorem resolveIndex_congr (harrays : s'.arrays = s.arrays) (t i : Value) :
    resolveIndex s' t i = resolveIndex s t i := by
  unfold resolveIndex
  simp only [Store.elements_congr harrays]

end Ember
