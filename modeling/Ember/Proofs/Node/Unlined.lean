import Ember.Proofs.Analysis
import Ember.Proofs.Tree.Unlined

/-!
# Node — nodes up to lines and file names

`Node.unlined` forgets in which lines of which file the parts of a program stand, as `Tree.unlined`
does for trees. The analysis does not look at places: it makes the same of a tree without lines as
of the tree itself, and refuses it for the same reason.

* `Node.unlined`: a node whose places name no file and no lines.
* `Analysis.analyze_unlined`: the analysis of a tree without lines.
* `analyzeTrees_of_unlined`: trees that differ in lines only have nodes that differ in lines only.
-/

namespace Ember

/-! ### Nodes without lines -/

namespace Node

mutual

/-- A node whose places name no file and no lines. -/
def unlined : Node → Node
  | literal v k s => literal v k (s.map Span.unlined)
  | identifier n s => identifier n (s.map Span.unlined)
  | array es s => array (unlinedAll es) (s.map Span.unlined)
  | binary op l r s => binary op (unlined l) (unlined r) (s.map Span.unlined)
  | logical op l r s => logical op (unlined l) (unlined r) (s.map Span.unlined)
  | unary op e s => unary op (unlined e) (s.map Span.unlined)
  | call f args s => call (unlined f) (unlinedAll args) (s.map Span.unlined)
  | index t i s => index (unlined t) (unlined i) (s.map Span.unlined)
  | functionExpr n ps b s => functionExpr n ps (unlined b) (s.map Span.unlined)
  | functionDef n ps b s => functionDef n ps (unlined b) (s.map Span.unlined)
  | letStmt n m e s => letStmt n m (unlined e) (s.map Span.unlined)
  | assign n e s => assign n (unlined e) (s.map Span.unlined)
  | indexAssign t i e s => indexAssign (unlined t) (unlined i) (unlined e) (s.map Span.unlined)
  | ifStmt c y none s => ifStmt (unlined c) (unlined y) none (s.map Span.unlined)
  | ifStmt c y (some n) s =>
    ifStmt (unlined c) (unlined y) (some (unlined n)) (s.map Span.unlined)
  | whileStmt c b s => whileStmt (unlined c) (unlined b) (s.map Span.unlined)
  | forStmt x e b s => forStmt x (unlined e) (unlined b) (s.map Span.unlined)
  | returnStmt none s => returnStmt none (s.map Span.unlined)
  | returnStmt (some e) s => returnStmt (some (unlined e)) (s.map Span.unlined)
  | block ss s => block (unlinedAll ss) (s.map Span.unlined)
  | exprStmt e s => exprStmt (unlined e) (s.map Span.unlined)
  | stray d => stray d
  | unknown t s => unknown t (s.map Span.unlined)
  | absent owner field s => absent owner field (s.map Span.unlined)
  | partialExpr t field s => partialExpr t field (s.map Span.unlined)
  | partialStmt t field first s => partialStmt t field (unlinedAll first) (s.map Span.unlined)

/-- Nodes whose places name no file and no lines. -/
def unlinedAll : List Node → List Node
  | [] => []
  | n :: ns => unlined n :: unlinedAll ns

end

@[simp] theorem unlinedAll_eq_map (ns : List Node) : unlinedAll ns = ns.map unlined := by
  induction ns with
  | nil => rfl
  | cons n ns ih => rw [unlinedAll, ih, List.map_cons]

@[simp] theorem span_unlined (n : Node) : n.unlined.span = n.span.map Span.unlined := by
  cases n with
  | ifStmt c y no s => cases no <;> rfl
  | returnStmt e s => cases e <;> rfl
  | _ => rfl

end Node

/-! ### Trees by their parts -/

mutual

/-- What holds of a tree if it holds of its parts holds of every tree. -/
theorem Tree.induction {P : Tree → Prop}
    (node : ∀ kind value ts s, (∀ t ∈ ts, P t) → P (.node kind value ts s))
    (stray : ∀ d, P (.stray d)) : ∀ t, P t
  | .node kind value ts s => node kind value ts s (Tree.inductionAll node stray ts)
  | .stray d => stray d

/-- What holds of a tree if it holds of its parts holds of all trees of a list. -/
theorem Tree.inductionAll {P : Tree → Prop}
    (node : ∀ kind value ts s, (∀ t ∈ ts, P t) → P (.node kind value ts s))
    (stray : ∀ d, P (.stray d)) : ∀ ts : List Tree, ∀ t ∈ ts, P t
  | [] => fun _ ht => nomatch ht
  | t :: ts => List.forall_mem_cons.mpr
      ⟨Tree.induction node stray t, Tree.inductionAll node stray ts⟩

end

namespace Tree

@[simp] theorem kind?_unlined (t : Tree) : t.unlined.kind? = t.kind? := by
  cases t with
  | node kind value ts s => rw [unlined_node]; rfl
  | stray d => rfl

@[simp] theorem span_unlined (t : Tree) : t.unlined.span = t.span.map Span.unlined := by
  cases t with
  | node kind value ts s => rw [unlined_node]; rfl
  | stray d => rfl

end Tree

/-! ### The analysis -/

namespace Analysis

variable {α β : Type}

/-- The same fault, at a place without lines. -/
def Refusal.unlined (r : Refusal) : Refusal := { r with span := r.span.map Span.unlined }

/-- The second result is the first one without lines, where `f` takes the lines away. -/
def Agrees (f : α → α) (r r' : Result α) : Prop :=
  r' = match r with
    | .ok a => .ok (f a)
    | .error e => .error e.unlined

theorem agrees_ok (f : α → α) (a : α) : Agrees f (.ok a) (.ok (f a)) := rfl

/-- The same reason, at the same place up to lines. -/
theorem agrees_refuse (f : α → α) (fault : SemanticsFault) (s : Option Span) :
    Agrees f (refuse fault s) (refuse fault (s.map Span.unlined)) := rfl

/-- Two analyses one after the other. -/
theorem Agrees.bind {f : α → α} {g : β → β} {r r' : Result α} {k k' : α → Result β}
    (h : Agrees f r r') (hk : ∀ a, Agrees g (k a) (k' (f a))) : Agrees g (r >>= k) (r' >>= k') := by
  cases r with
  | ok a =>
      rw [Agrees] at h
      subst h
      exact hk a
  | error e =>
      rw [Agrees] at h
      subst h
      rfl

/-- Trees that are analyzed one by one. -/
theorem agrees_analyzeAll {inF : Bool} {ts : List Tree}
    (h : ∀ t ∈ ts, Agrees Node.unlined (analyze inF t) (analyze inF t.unlined)) :
    Agrees (List.map Node.unlined) (analyzeAll inF ts) (analyzeAll inF (ts.map Tree.unlined)) := by
  induction ts with
  | nil => rfl
  | cons t ts ih =>
      obtain ⟨ht, hts⟩ := List.forall_mem_cons.mp h
      rw [List.map_cons, analyzeAll, analyzeAll]
      exact ht.bind fun n => (ih hts).bind fun ns => agrees_ok _ (n :: ns)

/-- A block is made of its statements. -/
theorem agrees_block {inF : Bool} {ts : List Tree} {s : Option Span}
    (h : Agrees (List.map Node.unlined) (analyzeAll inF ts)
      (analyzeAll inF (ts.map Tree.unlined))) :
    Agrees Node.unlined (do return Node.block (← analyzeAll inF ts) s)
      (do return Node.block (← analyzeAll inF (ts.map Tree.unlined)) (s.map Span.unlined)) := by
  refine h.bind fun ns => ?_
  rw [← Node.unlinedAll_eq_map]
  exact agrees_ok Node.unlined (.block ns s)

/-- A negative literal is one without lines. -/
theorem foldedNegation?_unlined (op : Datum) (t : Tree) :
    foldedNegation? op t.unlined = foldedNegation? op t := by
  cases t with
  | stray d => rfl
  | node kind value ts s =>
      rw [Tree.unlined_node]
      unfold foldedNegation?
      split <;> split <;> simp_all

/-- Parameters are checked first, then the body is analyzed. -/
theorem agrees_function {ps : List String} {name : Option String} {s : Option Span} {b : Tree}
    {make make' : Node → Node}
    (hb : Agrees Node.unlined (analyzeBlock true b) (analyzeBlock true b.unlined))
    (hmake : ∀ n, make' n.unlined = (make n).unlined) :
    Agrees Node.unlined (match firstRepeated? [] ps with
      | some p => refuse (.duplicateParameter p name) s
      | none => do
        let body ← analyzeBlock true b
        return make body) (match firstRepeated? [] ps with
      | some p => refuse (.duplicateParameter p name) (s.map Span.unlined)
      | none => do
        let body ← analyzeBlock true b.unlined
        return make' body) := by
  cases firstRepeated? [] ps with
  | some p => exact agrees_refuse _ _ s
  | none =>
      refine hb.bind fun n => ?_
      rw [hmake]
      exact agrees_ok _ (make n)

/-- A block without lines is analyzed like the block. -/
theorem analyzeBlock_unlined (inF : Bool) (t : Tree)
    (h : ∀ u ∈ t.children, Agrees Node.unlined (analyze inF u) (analyze inF u.unlined)) :
    Agrees Node.unlined (analyzeBlock inF t) (analyzeBlock inF t.unlined) := by
  cases t with
  | node kind value ts s =>
      rw [Tree.unlined_node, analyzeBlock, analyzeBlock]
      exact agrees_block (agrees_analyzeAll h)
  | stray d => exact agrees_refuse _ _ none

/-- **The analysis does not look at lines.** -/
theorem analyze_unlined (inF : Bool) (t : Tree) :
    Agrees Node.unlined (analyze inF t) (analyze inF t.unlined) ∧
      Agrees Node.unlined (analyzeBlock inF t) (analyzeBlock inF t.unlined) := by
  induction t using Tree.induction generalizing inF with
  | stray d => exact ⟨agrees_refuse _ _ none, agrees_refuse _ _ none⟩
  | node kind v ts s ih =>
      have hall (inF : Bool) := agrees_analyzeAll fun t ht => (ih t ht inF).1
      refine ⟨?_, analyzeBlock_unlined inF _ fun t ht => (ih t ht inF).1⟩
      rw [Tree.unlined_node]
      cases kind with
      | number | string | bool | nil =>
          simp only [analyze]
          exact agrees_ok Node.unlined (.literal v _ s)
      | identifier =>
          simp only [analyze]
          exact agrees_ok Node.unlined (.identifier v.bare s)
      | array =>
          simp only [analyze]
          refine (hall inF).bind fun ns => ?_
          rw [← Node.unlinedAll_eq_map]
          exact agrees_ok Node.unlined (.array ns s)
      | binary =>
          rcases ts with _ | ⟨l, _ | ⟨r, ts⟩⟩
          · exact agrees_refuse _ _ s
          · exact agrees_refuse _ _ s
          · simp only [List.mem_cons, forall_eq_or_imp] at ih
            simp only [List.map_cons, analyze]
            exact (ih.1 inF).1.bind fun l => (ih.2.1 inF).1.bind fun r =>
              agrees_ok Node.unlined (.binary v.bare l r s)
      | logical =>
          rcases ts with _ | ⟨l, _ | ⟨r, ts⟩⟩
          · exact agrees_refuse _ _ s
          · exact agrees_refuse _ _ s
          · simp only [List.mem_cons, forall_eq_or_imp] at ih
            simp only [List.map_cons, analyze]
            exact (ih.1 inF).1.bind fun l => (ih.2.1 inF).1.bind fun r =>
              agrees_ok Node.unlined (.logical v.bare l r s)
      | unary =>
          rcases ts with _ | ⟨e, ts⟩
          · exact agrees_refuse _ _ s
          · simp only [List.mem_cons, forall_eq_or_imp] at ih
            simp only [List.map_cons, analyze, foldedNegation?_unlined]
            split
            · exact agrees_ok Node.unlined (.literal _ _ s)
            · rw [Tree.span_unlined]
              exact agrees_refuse _ _ e.span
            · exact (ih.1 inF).1.bind fun e => agrees_ok Node.unlined (.unary v.bare e s)
      | call =>
          rcases ts with _ | ⟨f, ts⟩
          · exact agrees_refuse _ _ s
          · obtain ⟨hf, hts⟩ := List.forall_mem_cons.mp ih
            simp only [List.map_cons, analyze]
            refine (hf inF).1.bind fun f => ?_
            refine (agrees_analyzeAll fun t ht => (hts t ht inF).1).bind fun args => ?_
            rw [← Node.unlinedAll_eq_map]
            exact agrees_ok Node.unlined (.call f args s)
      | index =>
          rcases ts with _ | ⟨t, _ | ⟨i, ts⟩⟩
          · exact agrees_refuse _ _ s
          · exact agrees_refuse _ _ s
          · simp only [List.mem_cons, forall_eq_or_imp] at ih
            simp only [List.map_cons, analyze]
            exact (ih.1 inF).1.bind fun t => (ih.2.1 inF).1.bind fun i =>
              agrees_ok Node.unlined (.index t i s)
      | functionExpr =>
          rcases ts with _ | ⟨b, ts⟩
          · exact agrees_refuse _ _ s
          · simp only [List.mem_cons, forall_eq_or_imp] at ih
            simp only [List.map_cons, analyze]
            split
            · exact agrees_refuse _ _ s
            · exact agrees_function (ih.1 true).2 fun n => rfl
      | functionDef =>
          rcases ts with _ | ⟨b, ts⟩
          · exact agrees_refuse _ _ s
          · simp only [List.mem_cons, forall_eq_or_imp] at ih
            simp only [List.map_cons, analyze]
            split
            · exact agrees_refuse _ _ s
            · exact agrees_function (ih.1 true).2 fun n => rfl
      | letStmt =>
          rcases ts with _ | ⟨e, ts⟩
          · exact agrees_refuse _ _ s
          · simp only [List.mem_cons, forall_eq_or_imp] at ih
            simp only [List.map_cons, analyze]
            refine (ih.1 inF).1.bind fun e => ?_
            split
            · exact agrees_refuse _ _ s
            · exact agrees_ok Node.unlined (.letStmt _ _ e s)
      | assign =>
          rcases ts with _ | ⟨e, ts⟩
          · exact agrees_refuse _ _ s
          · simp only [List.mem_cons, forall_eq_or_imp] at ih
            simp only [List.map_cons, analyze]
            exact (ih.1 inF).1.bind fun e => agrees_ok Node.unlined (.assign v.bare e s)
      | indexAssign =>
          rcases ts with _ | ⟨t, _ | ⟨i, _ | ⟨e, _ | ⟨u, ts⟩⟩⟩⟩
          · exact agrees_refuse _ _ s
          · exact agrees_refuse _ _ s
          · exact agrees_refuse _ _ s
          · simp only [List.mem_cons, forall_eq_or_imp] at ih
            simp only [List.map_cons, List.map_nil, analyze]
            exact (ih.1 inF).1.bind fun t => (ih.2.1 inF).1.bind fun i =>
              (ih.2.2.1 inF).1.bind fun e => agrees_ok Node.unlined (.indexAssign t i e s)
          · exact agrees_refuse _ _ s
      | ifStmt =>
          rcases ts with _ | ⟨c, _ | ⟨y, _ | ⟨n, ts⟩⟩⟩
          · exact agrees_refuse _ _ s
          · exact agrees_refuse _ _ s
          · simp only [List.mem_cons, forall_eq_or_imp] at ih
            simp only [List.map_cons, List.map_nil, analyze]
            exact (ih.1 inF).1.bind fun c => (ih.2.1 inF).2.bind fun y =>
              agrees_ok Node.unlined (.ifStmt c y none s)
          · simp only [List.mem_cons, forall_eq_or_imp] at ih
            simp only [List.map_cons, analyze_ifElse]
            refine (ih.1 inF).1.bind fun c => (ih.2.1 inF).2.bind fun y => ?_
            refine Agrees.bind (f := Node.unlined) ?_ fun n =>
              agrees_ok Node.unlined (.ifStmt c y (some n) s)
            rw [analyzeBranch, analyzeBranch, Tree.kind?_unlined]
            split
            · exact (ih.2.2.1 inF).1
            · exact (ih.2.2.1 inF).2
      | whileStmt =>
          rcases ts with _ | ⟨c, _ | ⟨b, ts⟩⟩
          · exact agrees_refuse _ _ s
          · exact agrees_refuse _ _ s
          · simp only [List.mem_cons, forall_eq_or_imp] at ih
            simp only [List.map_cons, analyze]
            exact (ih.1 inF).1.bind fun c => (ih.2.1 inF).2.bind fun b =>
              agrees_ok Node.unlined (.whileStmt c b s)
      | forStmt =>
          rcases ts with _ | ⟨e, _ | ⟨b, ts⟩⟩
          · exact agrees_refuse _ _ s
          · exact agrees_refuse _ _ s
          · simp only [List.mem_cons, forall_eq_or_imp] at ih
            simp only [List.map_cons, analyze]
            exact (ih.1 inF).1.bind fun e => (ih.2.1 inF).2.bind fun b =>
              agrees_ok Node.unlined (.forStmt v.bare e b s)
      | returnStmt =>
          cases inF with
          | false => cases ts <;> exact agrees_refuse _ _ s
          | true =>
              rcases ts with _ | ⟨e, ts⟩
              · exact agrees_ok Node.unlined (.returnStmt none s)
              · simp only [List.mem_cons, forall_eq_or_imp] at ih
                exact (ih.1 true).1.bind fun e => agrees_ok Node.unlined (.returnStmt (some e) s)
      | block =>
          simp only [analyze]
          exact agrees_block (hall inF)
      | blockStmt =>
          rcases ts with _ | ⟨b, ts⟩
          · exact agrees_refuse _ _ s
          · simp only [List.map_cons, analyze]
            exact (ih b List.mem_cons_self inF).2
      | exprStmt =>
          rcases ts with _ | ⟨e, ts⟩
          · exact agrees_refuse _ _ s
          · simp only [List.mem_cons, forall_eq_or_imp] at ih
            simp only [List.map_cons, analyze]
            exact (ih.1 inF).1.bind fun e => agrees_ok Node.unlined (.exprStmt e s)
      | other name => exact agrees_refuse _ _ s

/-- So are the trees of a list. -/
theorem analyzeAll_unlined (inF : Bool) (ts : List Tree) :
    Agrees (List.map Node.unlined) (analyzeAll inF ts) (analyzeAll inF (ts.map Tree.unlined)) :=
  agrees_analyzeAll fun t _ => (analyze_unlined inF t).1

/-- Trees are analyzed from left to right. -/
theorem analyzeAll_append (inF : Bool) (ts us : List Tree) :
    analyzeAll inF (ts ++ us) = (do
      let ns ← analyzeAll inF ts
      let ks ← analyzeAll inF us
      return ns ++ ks) := by
  induction ts with
  | nil =>
      rw [List.nil_append]
      cases analyzeAll inF us <;> rfl
  | cons t ts ih =>
      rw [List.cons_append, analyzeAll, analyzeAll, ih]
      cases analyze inF t with
      | error e => rfl
      | ok n =>
          cases analyzeAll inF ts with
          | error e => rfl
          | ok ns => cases analyzeAll inF us <;> rfl

/-! ### How deep the analysis goes -/

/-- Both are refused or neither is. -/
theorem Agrees.isOk {f : α → α} {r r' : Result α} (h : Agrees f r r') : r'.isOk = r.isOk := by
  unfold Agrees at h
  subst h
  cases r <;> rfl

/-- Whether the parts of a tree are gone into does not depend on lines. -/
theorem entersParts_unlined (inF : Bool) (kind : Tree.Kind) (v : Datum) (ts : List Tree)
    (s s' : Option Span) :
    entersParts inF (.node kind v (ts.map Tree.unlined) s')
      = entersParts inF (.node kind v ts s) := by
  cases kind with
  | unary =>
      cases ts with
      | nil => rfl
      | cons t ts => exact congrArg Option.isNone (foldedNegation?_unlined v t)
  | _ => rfl

theorem depthAll_of_depth {inF : Bool} {ts : List Tree}
    (h : ∀ t ∈ ts, depth inF t.unlined = depth inF t) :
    depthAll inF (ts.map Tree.unlined) = depthAll inF ts := by
  induction ts with
  | nil => rfl
  | cons t ts ih =>
      obtain ⟨ht, hts⟩ := List.forall_mem_cons.mp h
      rw [List.map_cons, depthAll, depthAll, ht, ih hts, (analyze_unlined inF t).1.isOk]

/-- The analysis goes as deep without lines. -/
theorem depth_unlined (inF : Bool) (t : Tree) : depth inF t.unlined = depth inF t := by
  induction t using Tree.induction generalizing inF with
  | stray d => rfl
  | node kind v ts s ih =>
      rw [Tree.unlined_node, depth, depth, entersParts_unlined (s := s),
        depthAll_of_depth fun t ht => ih t ht _]

/-- **How deep the analysis goes** is not a matter of lines either. -/
theorem depthAll_unlined (inF : Bool) (ts : List Tree) :
    depthAll inF (ts.map Tree.unlined) = depthAll inF ts :=
  depthAll_of_depth fun t _ => depth_unlined inF t

/-- Behind trees that are accepted the analysis goes on. -/
theorem depthAll_append {inF : Bool} {ts : List Tree} {ns : List Node}
    (h : analyzeAll inF ts = .ok ns) (us : List Tree) :
    depthAll inF (ts ++ us) = max (depthAll inF ts) (depthAll inF us) := by
  induction ts generalizing ns with
  | nil => rw [List.nil_append, depthAll, Nat.zero_max]
  | cons t ts ih =>
      rw [analyzeAll] at h
      cases ht : analyze inF t with
      | error e =>
          rw [ht] at h
          cases h
      | ok n =>
          rw [ht] at h
          cases hts : analyzeAll inF ts with
          | error e =>
              rw [hts] at h
              cases h
          | ok ns =>
              rw [List.cons_append, depthAll, depthAll, ht, ih hts]
              exact (max_assoc ..).symm

end Analysis

/-- Programs that are accepted one by one are accepted together. -/
theorem analyzeTrees_flatten {programs : List (List Tree)} {nodes : List (List Node)}
    (h : List.Forall₂ (fun ts ns => analyzeTrees ts = .ok ns) programs nodes) :
    analyzeTrees programs.flatten = .ok nodes.flatten := by
  rw [analyzeTrees_eq_ok]
  induction h with
  | nil => rfl
  | cons hts _ ih =>
      rw [List.flatten_cons, Analysis.analyzeAll_append, analyzeTrees_eq_ok.mp hts, ih]
      rfl

/-- The analysis of several programs goes no deeper than that of one of them. -/
theorem depthAll_flatten {programs : List (List Tree)} {nodes : List (List Node)} {n : Nat}
    (h : List.Forall₂ (fun ts ns => analyzeTrees ts = .ok ns) programs nodes)
    (hdepth : ∀ ts ∈ programs, Analysis.depthAll false ts ≤ n) :
    Analysis.depthAll false programs.flatten ≤ n := by
  induction h with
  | nil => exact Nat.zero_le n
  | cons hts _ ih =>
      obtain ⟨hfirst, hrest⟩ := List.forall_mem_cons.mp hdepth
      rw [List.flatten_cons, Analysis.depthAll_append (analyzeTrees_eq_ok.mp hts)]
      exact max_le hfirst (ih hrest)

/-- Trees that differ in lines only make nodes that differ in lines only. -/
theorem analyzeTrees_of_unlined {ts us : List Tree} {ns : List Node}
    (h : ts.map Tree.unlined = us.map Tree.unlined) (hns : analyzeTrees ts = .ok ns) :
    ∃ ks, analyzeTrees us = .ok ks ∧ ks.map Node.unlined = ns.map Node.unlined := by
  have hts := Analysis.analyzeAll_unlined false ts
  have hus := Analysis.analyzeAll_unlined false us
  rw [analyzeTrees_eq_ok.mp hns, h] at hts
  unfold Analysis.Agrees at hts hus
  rw [hts] at hus
  cases hks : Analysis.analyzeAll false us with
  | ok ks =>
      rw [hks] at hus
      injection hus with hus
      exact ⟨ks, analyzeTrees_eq_ok.mpr hks, hus.symm⟩
  | error r =>
      rw [hks] at hus
      cases hus

end Ember
