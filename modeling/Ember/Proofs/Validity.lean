import Ember.Proofs.Analysis

/-!
# Validity — the programs that the analysis accepts

What makes a tree no program can be told node by node: a function whose parameters are not all
different, and a return that is not inside of a function. The analysis goes through a program in
order, each node before its parts, and stops at the first such node.

* `Tree.visits`: the nodes of a tree in order, and whether each is inside of a function.
* `Visit.Valid`, `Visit.Offends`: a node at which nothing is wrong, and what is wrong at a node.
* `Analysis.judges_analyze`: the analysis of a tree finds the first fault in it, if there is one.
* `analyzeTrees_first_fault`: so does the analysis of a program.
-/

namespace Ember

/-! ### Nodes in order -/

/-- A node of a tree, with its parts, and whether it is inside of a function. -/
structure Visit where
  tree : Tree
  inFunction : Bool

namespace Tree

mutual

/-- The nodes of a tree in order, each before its parts. -/
def visits (inFunction : Bool) : Tree → List Visit
  | .node kind value cs s =>
    ⟨.node kind value cs s, inFunction⟩ :: visitsAll (inFunction || kind.opensFunction) cs
  | .stray d => [⟨.stray d, inFunction⟩]

/-- The nodes of several trees, from left to right. -/
def visitsAll (inFunction : Bool) : List Tree → List Visit
  | [] => []
  | t :: ts => visits inFunction t ++ visitsAll inFunction ts

end

/-- The tree is a function with this name, if it has one, and these parameters. -/
inductive IsFunction : Tree → Option String → List String → Prop where
  | named {n : String} {ps : List String} {cs : List Tree} {s : Option Span} :
      IsFunction (.node .functionDef (Grammar.functionHead (.str n) ps) cs s) (some n) ps
  | unnamed {ps : List String} {cs : List Tree} {s : Option Span} :
      IsFunction (.node .functionExpr (Grammar.functionHead .null ps) cs s) none ps

end Tree

/-! ### What is wrong at a node -/

/-- The first element of a list that occurs before already. -/
def FirstRepeated (p : String) (ps : List String) : Prop :=
  ∃ before after, ps = before ++ p :: after ∧ p ∈ before ∧ before.Nodup

/-- Nothing is wrong at the node itself: if it is a function, its parameters are all different, and
if it is a return, it is inside of a function. -/
structure Visit.Valid (v : Visit) : Prop where
  parameters : ∀ name ps, v.tree.IsFunction name ps → ps.Nodup
  inside : v.tree.kind? = some .returnStmt → v.inFunction

/-- What is wrong at the node itself. -/
inductive Visit.Offends : Visit → Analysis.Refusal → Prop where
  | parameter {t : Tree} {inF : Bool} {name : Option String} {ps : List String} {p : String}
      (ht : t.IsFunction name ps) (hp : FirstRepeated p ps) :
      Offends ⟨t, inF⟩ ⟨.duplicateParameter p name, t.span⟩
  | outside {value : Datum} {cs : List Tree} {s : Option Span} :
      Offends ⟨.node .returnStmt value cs s, false⟩ ⟨.returnOutside, s⟩

namespace Analysis

variable {α β : Type} {inF : Bool} {t b : Tree} {ts : List Tree} {role : Tree.Role} {p : String}
  {ps seen : List String}

/-! ### Repeated parameters -/

/-- If no repeated name is found, the names are different from each other and from those seen
before. -/
theorem nodup_of_firstRepeated? (h : firstRepeated? seen ps = none) :
    ps.Nodup ∧ ∀ x ∈ ps, x ∉ seen := by
  induction ps generalizing seen with
  | nil => exact ⟨List.nodup_nil, fun x hx => absurd hx List.not_mem_nil⟩
  | cons x xs ih =>
      rw [firstRepeated?] at h
      split at h
      · cases h
      · rename_i hx
        obtain ⟨hnodup, hfree⟩ := ih h
        have hxs : x ∉ xs := fun hmem => hfree x hmem List.mem_cons_self
        refine ⟨List.nodup_cons.mpr ⟨hxs, hnodup⟩, List.forall_mem_cons.mpr ⟨hx, fun y hy => ?_⟩⟩
        exact fun hmem => hfree y hy (List.mem_cons_of_mem _ hmem)

/-- The name that is found is the first one that occurred before. -/
theorem exists_of_firstRepeated? (h : firstRepeated? seen ps = some p) :
    ∃ before after, ps = before ++ p :: after ∧ (p ∈ seen ∨ p ∈ before) ∧ before.Nodup ∧
      ∀ x ∈ before, x ∉ seen := by
  induction ps generalizing seen with
  | nil => cases h
  | cons x xs ih =>
      rw [firstRepeated?] at h
      split at h
      · rename_i hx
        cases h
        exact ⟨[], xs, rfl, .inl hx, List.nodup_nil, fun y hy => absurd hy List.not_mem_nil⟩
      · rename_i hx
        obtain ⟨before, after, rfl, hp, hnodup, hfree⟩ := ih h
        have hxs : x ∉ before := fun hmem => hfree x hmem List.mem_cons_self
        refine ⟨x :: before, after, rfl, ?_, List.nodup_cons.mpr ⟨hxs, hnodup⟩,
          List.forall_mem_cons.mpr ⟨hx, fun y hy hmem => hfree y hy (List.mem_cons_of_mem _ hmem)⟩⟩
        rcases hp with hp | hp
        · rcases List.mem_cons.mp hp with rfl | hp
          · exact .inr List.mem_cons_self
          · exact .inl hp
        · exact .inr (List.mem_cons_of_mem _ hp)

theorem firstRepeated_of_firstRepeated? (h : firstRepeated? [] ps = some p) :
    FirstRepeated p ps := by
  obtain ⟨before, after, hps, hp, hnodup, -⟩ := exists_of_firstRepeated? h
  exact ⟨before, after, hps, hp.resolve_left List.not_mem_nil, hnodup⟩

theorem not_nodup_of_firstRepeated (h : FirstRepeated p ps) : ¬ ps.Nodup := by
  obtain ⟨before, after, rfl, hp, -⟩ := h
  intro hnodup
  exact (List.nodup_append.mp hnodup).2.2 p hp p List.mem_cons_self rfl

/-- **Nothing is wrong at a node** if and only if there is nothing that is wrong at it. -/
theorem valid_iff {v : Visit} : v.Valid ↔ ∀ r, ¬ v.Offends r := by
  constructor
  · rintro ⟨hparameters, hinside⟩ r hr
    cases hr with
    | parameter ht hp => exact not_nodup_of_firstRepeated hp (hparameters _ _ ht)
    | outside => exact absurd (hinside rfl) Bool.false_ne_true
  · intro h
    obtain ⟨t, inF⟩ := v
    refine ⟨fun name ps ht => ?_, fun hkind => ?_⟩
    · cases hrepeated : firstRepeated? [] ps with
      | none => exact (nodup_of_firstRepeated? hrepeated).1
      | some p => exact absurd (.parameter ht (firstRepeated_of_firstRepeated? hrepeated)) (h _)
    · cases inF with
      | true => rfl
      | false =>
          cases t with
          | stray d => cases hkind
          | node kind value cs s =>
              obtain rfl : kind = .returnStmt := Option.some.inj hkind
              exact absurd .outside (h _)

/-! ### The first fault -/

/-- The outcome is right for these nodes: it is a success if they are all valid, and otherwise it
refuses the first one that is not. -/
def Judges (r : Result α) (vs : List Visit) : Prop :=
  match r with
  | .ok _ => ∀ v ∈ vs, v.Valid
  | .error e => ∃ before v after, vs = before ++ v :: after ∧ (∀ u ∈ before, u.Valid) ∧ v.Offends e

variable {r : Result α} {f : α → Result β} {vs ws : List Visit} {v : Visit}

theorem Judges.after (h : Judges r vs) (hws : ∀ v ∈ ws, v.Valid) : Judges r (ws ++ vs) := by
  cases r with
  | ok a => exact List.forall_mem_append.mpr ⟨hws, h⟩
  | error e =>
      obtain ⟨before, v, after, rfl, hbefore, hv⟩ := h
      exact ⟨ws ++ before, v, after, (List.append_assoc ..).symm,
        List.forall_mem_append.mpr ⟨hws, hbefore⟩, hv⟩

/-- Two steps of the analysis are right for the nodes of the first and then those of the second. -/
theorem Judges.bind (h : Judges r vs) (hf : ∀ a, Judges (f a) ws) :
    Judges (r >>= f) (vs ++ ws) := by
  cases r with
  | ok a => exact (hf a).after h
  | error e =>
      obtain ⟨before, v, after, rfl, hbefore, hv⟩ := h
      exact ⟨before, v, after ++ ws, by simp, hbefore, hv⟩

/-- Nothing is wrong at the node itself. -/
theorem Judges.cons (h : Judges r vs) (hv : v.Valid) : Judges r (v :: vs) := by
  have hfirst : ∀ u ∈ [v], u.Valid := List.forall_mem_singleton.mpr hv
  exact h.after hfirst

theorem judges_ok (a : α) : Judges (.ok a : Result α) [] := fun _ hv => absurd hv List.not_mem_nil

/-- A refusal of the first node is right, whatever nodes come after it. -/
theorem judges_refuse {e : Refusal} (h : v.Offends e) (vs : List Visit) :
    Judges (.error e : Result α) (v :: vs) :=
  ⟨[], v, vs, rfl, fun _ hu => absurd hu List.not_mem_nil, h⟩

/-- What is done with the last outcome does not matter. -/
theorem Judges.last (h : Judges r vs) (hf : ∀ a, Judges (f a) []) : Judges (r >>= f) vs := by
  rw [← List.append_nil vs]
  exact h.bind hf

/-- Only functions and returns can be wrong. -/
theorem valid_of_kind {kind : Tree.Kind} {value : Datum} {cs : List Tree} {s : Option Span}
    (hkind : kind.opensFunction = false) (hreturn : kind ≠ .returnStmt) :
    (⟨.node kind value cs s, inF⟩ : Visit).Valid := by
  refine ⟨fun name ps ht => ?_, fun h => absurd (Option.some.inj h) hreturn⟩
  cases ht <;> cases hkind

/-! ### Analysis -/

/-- A block is analyzed like any other tree. -/
theorem analyzeBlock_eq (h : Tree.Shaped Grammar.IsNumber .block b) :
    analyzeBlock inF b = analyze inF b := by
  cases h with
  | block _ => rw [analyzeBlock, analyze]

theorem analyzeBranch_eq (h : Tree.Shaped Grammar.IsNumber .branch b) :
    analyzeBranch inF b = analyze inF b := by
  cases h with
  | elseIf _ => rw [analyzeBranch, Tree.kind?, if_pos rfl]
  | elseBlock hb =>
      have heq : analyzeBlock inF b = analyze inF b := analyzeBlock_eq hb
      cases hb with
      | block _ => rwa [analyzeBranch, Tree.kind?, if_neg (by simp)]

/-- A list of trees is judged in order if each tree is judged rightly. -/
theorem judges_analyzeAll (h : ∀ t ∈ ts, Judges (analyze inF t) (t.visits inF)) :
    Judges (analyzeAll inF ts) (Tree.visitsAll inF ts) := by
  induction ts with
  | nil => exact judges_ok []
  | cons t ts ih =>
      obtain ⟨ht, hts⟩ := List.forall_mem_cons.mp h
      rw [analyzeAll, Tree.visitsAll]
      exact ht.bind fun n => (ih hts).last fun ns => judges_ok _

theorem head_of_isFunction {kind : Tree.Kind} {value : Datum} {cs : List Tree} {s : Option Span}
    {name : Option String} (h : (Tree.node kind value cs s).IsFunction name ps) :
    functionHead? value = some (name, ps) := by
  cases h with
  | named => exact functionHead?_functionHead (.str _) ps
  | unnamed => exact functionHead?_functionHead .null ps

/-- A function, with a name or without. -/
theorem judges_function {name : Option String} {cs : List Tree} {s : Option Span}
    {kind : Tree.Kind} {value : Datum} {make : Node → Node}
    (ht : (Tree.node kind value cs s).IsFunction name ps)
    (hb : Judges (analyzeBlock true b) vs) :
    Judges (match firstRepeated? [] ps with
      | some p => refuse (.duplicateParameter p name) s
      | none => do
        let body ← analyzeBlock true b
        return make body) (⟨.node kind value cs s, inF⟩ :: vs) := by
  cases hrepeated : firstRepeated? [] ps with
  | some p => exact judges_refuse (.parameter ht (firstRepeated_of_firstRepeated? hrepeated)) vs
  | none =>
      refine (hb.last fun n => judges_ok _).cons ⟨fun name' ps' ht' => ?_, fun hkind => ?_⟩
      · have heq := (head_of_isFunction ht').symm.trans (head_of_isFunction ht)
        cases heq
        exact (nodup_of_firstRepeated? hrepeated).1
      · cases ht <;> cases hkind

theorem judges_body {kind : Tree.Kind} (hb : Tree.Shaped Grammar.IsNumber .block b)
    (h : Judges (analyze true b) (b.visits true)) (hkind : kind.opensFunction) :
    Judges (analyzeBlock true b) (Tree.visitsAll (inF || kind.opensFunction) [b]) := by
  rw [hkind, Bool.or_true, Tree.visitsAll, Tree.visitsAll, List.append_nil, analyzeBlock_eq hb]
  exact h

/-- Nothing is wrong at a number that becomes part of a literal. -/
theorem valid_of_folded {op : Datum} {d : Option Datum}
    (ht : Tree.Shaped Grammar.IsNumber .expression t) (h : foldedNegation? op t = some d) :
    ∀ v ∈ t.visits inF, v.Valid := by
  unfold foldedNegation? at h
  split at h
  · cases ht with
    | number hd =>
        rw [Tree.visits, Tree.visitsAll]
        exact List.forall_mem_singleton.mpr (valid_of_kind rfl (by decide))
  · cases h

/-- A node that is neither a function nor a return. -/
theorem judges_node {kind : Tree.Kind} {value : Datum} {cs : List Tree} {s : Option Span}
    (hkind : kind.opensFunction = false) (hreturn : kind ≠ .returnStmt)
    (h : Judges r (Tree.visitsAll inF cs)) : Judges r ((Tree.node kind value cs s).visits inF) := by
  rw [Tree.visits, hkind, Bool.or_false]
  exact h.cons (valid_of_kind hkind hreturn)

/-- **The analysis of a tree finds the first fault in it**, if there is one. -/
theorem judges_analyze (h : Tree.Shaped Grammar.IsNumber role t) (inF : Bool) :
    Judges (analyze inF t) (t.visits inF) := by
  induction h generalizing inF with
  | number | string | bool | nil | identifier =>
      rw [analyze]
      exact judges_node rfl (by decide) (judges_ok _)
  | array hes ih =>
      rw [analyze]
      refine judges_node rfl (by decide) ?_
      exact (judges_analyzeAll fun t ht => ih t ht inF).last fun ns => judges_ok _
  | binary hop hl hr ihl ihr =>
      rw [analyze]
      refine judges_node rfl (by decide) ?_
      exact (ihl inF).bind fun l => (ihr inF).bind fun r => judges_ok _
  | logical hop hl hr ihl ihr =>
      rw [analyze]
      refine judges_node rfl (by decide) ?_
      exact (ihl inF).bind fun l => (ihr inF).bind fun r => judges_ok _
  | @unary op e s hop he ih =>
      rw [analyze]
      refine judges_node rfl (by decide) ?_
      split
      · -- a number that is folded is passed over, but nothing is wrong at a number
        rename_i hfold
        exact fun v hv => valid_of_folded he hfold v (by simpa [Tree.visitsAll] using hv)
      · rename_i hfold
        exact absurd hfold (foldedNegation?_ne he)
      · exact (ih inF).bind fun e => judges_ok _
  | call hf hargs ihf ihargs =>
      rw [analyze]
      refine judges_node rfl (by decide) ((ihf inF).bind fun f => ?_)
      exact (judges_analyzeAll fun t ht => ihargs t ht inF).last fun ns => judges_ok _
  | index ht hi iht ihi =>
      rw [analyze]
      refine judges_node rfl (by decide) ?_
      exact (iht inF).bind fun t => (ihi inF).bind fun i => judges_ok _
  | functionExpr hps hb ih =>
      rw [analyze, functionHead?_functionHead, Tree.visits]
      exact judges_function .unnamed (judges_body hb (ih true) rfl)
  | functionDef hn hps hb ih =>
      rw [analyze, functionHead?_functionHead, Tree.visits]
      exact judges_function .named (judges_body hb (ih true) rfl)
  | letStmt hn he ih =>
      rw [analyze, letHead?_letHead]
      exact judges_node rfl (by decide) ((ih inF).bind fun e => judges_ok _)
  | assign hn he ih =>
      rw [analyze]
      exact judges_node rfl (by decide) ((ih inF).bind fun e => judges_ok _)
  | indexAssign ht hi he iht ihi ihe =>
      rw [analyze]
      refine judges_node rfl (by decide) ?_
      exact (iht inF).bind fun t => (ihi inF).bind fun i => (ihe inF).bind fun e => judges_ok _
  | ifThen hc hy ihc ihy =>
      rw [analyze, analyzeBlock_eq hy]
      refine judges_node rfl (by decide) ?_
      exact (ihc inF).bind fun c => (ihy inF).bind fun y => judges_ok _
  | ifElse hc hy hn ihc ihy ihn =>
      rw [analyze_ifElse, analyzeBlock_eq hy, analyzeBranch_eq hn]
      refine judges_node rfl (by decide) ?_
      exact (ihc inF).bind fun c => (ihy inF).bind fun y => (ihn inF).bind fun n => judges_ok _
  | whileStmt hc hb ihc ihb =>
      rw [analyze, analyzeBlock_eq hb]
      refine judges_node rfl (by decide) ?_
      exact (ihc inF).bind fun c => (ihb inF).bind fun b => judges_ok _
  | forStmt hn he hb ihe ihb =>
      rw [analyze, analyzeBlock_eq hb]
      refine judges_node rfl (by decide) ?_
      exact (ihe inF).bind fun e => (ihb inF).bind fun b => judges_ok _
  | bareReturn =>
      rw [analyze, Tree.visits]
      cases inF with
      | true => exact (judges_ok _).cons ⟨fun _ _ ht => (by cases ht), fun _ => rfl⟩
      | false => exact judges_refuse .outside _
  | valueReturn he ih =>
      rw [analyze, Tree.visits]
      cases inF with
      | true =>
          refine Judges.cons ?_ ⟨fun _ _ ht => (by cases ht), fun _ => rfl⟩
          exact (ih true).bind fun e => judges_ok _
      | false => exact judges_refuse .outside _
  | blockStmt hb ih =>
      rw [analyze, analyzeBlock_eq hb]
      refine judges_node rfl (by decide) ?_
      rw [Tree.visitsAll, Tree.visitsAll, List.append_nil]
      exact ih inF
  | exprStmt he ih =>
      rw [analyze]
      exact judges_node rfl (by decide) ((ih inF).bind fun e => judges_ok _)
  | block hss ih =>
      rw [analyze]
      refine judges_node rfl (by decide) ?_
      exact (judges_analyzeAll fun t ht => ih t ht inF).last fun ns => judges_ok _
  | elseBlock hb ih => exact ih inF
  | elseIf h ih => exact ih inF

end Analysis

/-! ### Returns in nodes -/

namespace Node

variable {n m k : Node} {role : Role} {inF : Bool}

/-- The parts of the node are inside of a function. -/
def opensFunction : Node → Bool
  | functionExpr .. | functionDef .. => true
  | _ => false

/-- The nodes in a node, itself and its parts at any depth, and whether each is inside of a
function. -/
inductive Holds (n : Node) : Node → Bool → Prop where
  | self : Holds n n false
  | part {m k : Node} {inF : Bool} (h : Holds n m inF) (hk : k ∈ m.children) :
      Holds n k (inF || m.opensFunction)

/-- The role is one for nodes that may return. -/
def Role.returns : Role → Bool
  | expression => false
  | statement inF | block inF | branch inF => inF

/-- The parts of a well-formed node are well-formed, and may return only where the node may or in a
function. -/
theorem Formed.part (h : Formed role n) (hk : k ∈ n.children) :
    ∃ role', Formed role' k ∧ (role'.returns → role.returns || n.opensFunction) := by
  induction h with
  | literal | identifier | bareReturn => cases hk
  | array hes => exact ⟨_, hes k hk, nofun⟩
  | binary _ hl hr | logical _ hl hr | index hl hr =>
      simp only [children, List.mem_cons, List.not_mem_nil, or_false] at hk
      rcases hk with rfl | rfl
      · exact ⟨_, hl, nofun⟩
      · exact ⟨_, hr, nofun⟩
  | unary _ he | letStmt he | assign he | exprStmt he | valueReturn he =>
      obtain rfl := List.mem_singleton.mp hk
      exact ⟨_, he, nofun⟩
  | call hf hargs =>
      rcases List.mem_cons.mp hk with rfl | hk
      · exact ⟨_, hf, nofun⟩
      · exact ⟨_, hargs k hk, nofun⟩
  | functionExpr hb | functionDef hb =>
      obtain rfl := List.mem_singleton.mp hk
      exact ⟨_, hb, fun _ => Bool.or_true _⟩
  | indexAssign ht hi he =>
      simp only [children, List.mem_cons, List.not_mem_nil, or_false] at hk
      rcases hk with rfl | rfl | rfl
      · exact ⟨_, ht, nofun⟩
      · exact ⟨_, hi, nofun⟩
      · exact ⟨_, he, nofun⟩
  | ifThen hc hy =>
      simp only [children, Option.toList, List.mem_cons, List.not_mem_nil, or_false] at hk
      rcases hk with rfl | rfl
      · exact ⟨_, hc, nofun⟩
      · exact ⟨_, hy, fun h => (Bool.or_eq_true ..).mpr (.inl h)⟩
  | ifElse hc hy hn =>
      simp only [children, Option.toList, List.mem_cons, List.not_mem_nil, or_false] at hk
      rcases hk with rfl | rfl | rfl
      · exact ⟨_, hc, nofun⟩
      · exact ⟨_, hy, fun h => (Bool.or_eq_true ..).mpr (.inl h)⟩
      · exact ⟨_, hn, fun h => (Bool.or_eq_true ..).mpr (.inl h)⟩
  | whileStmt hc hb | forStmt hc hb =>
      simp only [children, List.mem_cons, List.not_mem_nil, or_false] at hk
      rcases hk with rfl | rfl
      · exact ⟨_, hc, nofun⟩
      · exact ⟨_, hb, fun h => (Bool.or_eq_true ..).mpr (.inl h)⟩
  | blockStmt hss | block hss | elseBlock hss =>
      exact ⟨_, hss k hk, fun h => (Bool.or_eq_true ..).mpr (.inl h)⟩
  | elseIf _ ih => exact ih hk

/-- Nodes inside of a formed node are formed, and return only where the outer one may or in a
function. -/
theorem Formed.of_holds (h : Formed role n) (hm : n.Holds m inF) :
    ∃ role', Formed role' m ∧ (role'.returns → role.returns || inF) := by
  induction hm with
  | self => exact ⟨role, h, fun hreturns => by rw [hreturns]; rfl⟩
  | part _ hk ih =>
      obtain ⟨role', hm, hrole⟩ := ih
      obtain ⟨role'', hk', hrole'⟩ := hm.part hk
      refine ⟨role'', hk', fun hreturns => ?_⟩
      rw [← Bool.or_assoc, Bool.or_eq_true]
      exact ((Bool.or_eq_true ..).mp (hrole' hreturns)).imp_left hrole

/-- Where a node may not return, its returns are inside of functions. -/
theorem Formed.inside_of_return (h : Formed role n) (hrole : role.returns = false)
    {value : Option Node} {s : Option Span} (hm : n.Holds (.returnStmt value s) inF) : inF := by
  obtain ⟨role', hm, hreturns⟩ := h.of_holds hm
  rw [hrole, Bool.false_or] at hreturns
  cases hm <;> exact hreturns rfl

end Node

/-! ### Programs -/

namespace Analysis

/-- Of a well-shaped tree of any role, the analysis makes a node that returns only where the tree
may. -/
theorem analyze_admits_returns {t : Tree} {role : Tree.Role} {inF : Bool}
    (h : Tree.Shaped Grammar.IsNumber role t) :
    Admits (analyze inF t) fun n => ∃ role', Node.Formed role' n ∧ (role'.returns → inF) := by
  have hanalyzed := analyze_admits h inF
  cases role with
  | expression => exact Admits.mono hanalyzed fun n hn => ⟨_, hn, nofun⟩
  | statement => exact Admits.mono hanalyzed fun n hn => ⟨_, hn, id⟩
  | block =>
      rw [← analyzeBlock_eq h]
      exact Admits.mono hanalyzed fun n hn => ⟨_, hn, id⟩
  | branch =>
      rw [← analyzeBranch_eq h]
      exact Admits.mono hanalyzed fun n hn => ⟨_, hn, id⟩

end Analysis

/-- **The analysis accepts exactly the valid programs, and reports the first fault.** Of trees that
have the shape of something that is read, it makes nodes if and only if nothing is wrong at any node
of them. Otherwise the error is what is wrong at the first node in order at which something is
wrong. Returns in the nodes that it makes are inside of functions. -/
theorem analyzeTrees_first_fault {ts : List Tree}
    (h : ∀ t ∈ ts, ∃ role, Tree.Shaped Grammar.IsNumber role t) :
    ((∃ ns, analyzeTrees ts = .ok ns) ↔ ∀ v ∈ Tree.visitsAll false ts, v.Valid) ∧
    (∀ e, analyzeTrees ts = .error e → ∃ before v after r,
      Tree.visitsAll false ts = before ++ v :: after ∧ (∀ u ∈ before, u.Valid) ∧ v.Offends r ∧
        e = r.error) ∧
    ∀ ns, analyzeTrees ts = .ok ns → ∀ n ∈ ns, ∀ value s inF,
      n.Holds (.returnStmt value s) inF → inF := by
  have hjudges : Analysis.Judges (Analysis.analyzeAll false ts) (Tree.visitsAll false ts) :=
    Analysis.judges_analyzeAll fun t ht => Analysis.judges_analyze (h t ht).choose_spec false
  have hadmits : Analysis.Admits (Analysis.analyzeAll false ts) fun ns => ∀ n ∈ ns,
      ∃ role, Node.Formed role n ∧ (role.returns → false) :=
    Analysis.analyzeAll_admits fun t ht => Analysis.analyze_admits_returns (h t ht).choose_spec
  unfold analyzeTrees
  cases hresult : Analysis.analyzeAll false ts with
  | ok ns =>
      rw [hresult] at hjudges hadmits
      refine ⟨⟨fun _ => hjudges, fun _ => ⟨ns, rfl⟩⟩, nofun, ?_⟩
      rintro ns' ⟨⟩ n hn value s inF hm
      obtain ⟨role, hformed, hrole⟩ := hadmits n hn
      exact hformed.inside_of_return (Bool.eq_false_iff.mpr fun hr => by cases hrole hr) hm
  | error r =>
      rw [hresult] at hjudges
      obtain ⟨before, v, after, heq, hbefore, hv⟩ := hjudges
      refine ⟨⟨nofun, fun hall => ?_⟩, ?_, nofun⟩
      · have hmem : v ∈ Tree.visitsAll false ts := by
          rw [heq]
          exact List.mem_append_right _ List.mem_cons_self
        exact absurd hv (Analysis.valid_iff.mp (hall v hmem) r)
      · rintro e ⟨⟩
        exact ⟨before, v, after, r, heq, hbefore, hv, rfl⟩

/-- Of two repeated parameters and a return outside of every function, the first repeated parameter
is reported. -/
theorem repeatedParameter_first : ∃ ts e,
    parseProgram "sample" "let f = fun (b, a, b, a) \x7b return a \x7d\nreturn f" = .ok ts ∧
    analyzeTrees ts = .error e ∧ e.message = "Duplicate parameter 'b' in anonymous function" ∧
    ∃ before v after r, Tree.visitsAll false ts = before ++ v :: after ∧
      (∀ u ∈ before, u.Valid) ∧ v.Offends r ∧ e = r.error := by
  have hok : (parseProgram "sample"
      "let f = fun (b, a, b, a) \x7b return a \x7d\nreturn f").toOption.any fun ts =>
        ((analyzeTrees ts).map fun _ => ()).mapError SemanticsError.message
          = .error "Duplicate parameter 'b' in anonymous function" := by decide +kernel
  obtain ⟨ts, hts, hok⟩ := exists_ok_of_any hok
  have hshaped : ∀ t ∈ ts, ∃ role, Tree.Shaped Grammar.IsNumber role t := fun t ht =>
    ⟨.statement, parseProgram_shaped hts t ht⟩
  have hresult := of_decide_eq_true hok
  cases he : analyzeTrees ts with
  | ok _ =>
      rw [he] at hresult
      cases hresult
  | error e =>
      rw [he] at hresult
      have hmessage : e.message = _ := Except.error.inj hresult
      exact ⟨ts, e, hts, he, hmessage, (analyzeTrees_first_fault hshaped).2.1 e he⟩

end Ember
