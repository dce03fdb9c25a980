import Ember.Proofs.Folding
import Ember.Proofs.Node.Live

/-!
# Unreached — nothing after a return runs

A return ends the list of statements in which it stands, and every list, conditional and loop around
that, up to the call. So the statements after it can be deleted everywhere in a program, and the
program does the same.

* `Run.Leaves`: a computation that does not go on to the next statement.
* `run_execAll_upToReturn`: statements run like those up to the first return.
* `Variation.unreached`: to differ in statements after a return.
* `nothing_after_return_runs`: a program and what is left of it end in the same way.
-/

namespace Ember

open Node (SameLive upToReturn liveProgram)

variable {cfg : Settings} {n : Node} {ns ns' : List Node}

/-! ### One list of statements -/

/-- If the computation ends without an error, it returns. -/
def Run.Leaves (r : Run Signal) : Prop := ∀ m v, (r.run.run m).1 ≠ .ok (.normal v)

theorem Run.Leaves.enter {r : Run Signal} (h : r.Leaves) (line : Machine → String)
    (s : Option Span) : Run.Leaves (do Run.traceLine cfg line; Run.locate s r) := by
  intro m v
  obtain ⟨t, ht⟩ := Run.run_enter cfg line s r m
  have hr := h { m with trace := t } v
  rw [ht, Run.run_locate]
  generalize r.run.run { m with trace := t } = out at hr
  rcases out with ⟨(⟨f, _ | span⟩ | _ | _) | signal, m'⟩
  · nofun
  · nofun
  · nofun
  · nofun
  · exact hr

/-- A `return` statement, if it ends without an error, returns. -/
theorem leaves_exec (hn : n.isReturn = true) (k e : Nat) : (exec cfg k n e).Leaves := by
  cases n with
  | returnStmt x s =>
      cases k with
      | zero => exact fun m v h => by cases h
      | succ k =>
          cases x with
          | none =>
              exact Run.Leaves.enter (fun m v h => by cases h) (fun _ => "Executing: RETURN") s
          | some x =>
              refine Run.Leaves.enter (r := eval cfg k x e >>= fun v => pure (.returned v))
                (fun m v => ?_) (fun _ => "Executing: RETURN") s
              rw [Run.run_bind]
              rcases (eval cfg k x e).run.run m with ⟨_ | w, m'⟩
              · nofun
              · nofun
  | _ => cases hn

/-- **Statements run like those up to the first return.** -/
theorem run_execAll_upToReturn (ns : List Node) (k : Nat) (signal : Signal) (e : Nat)
    (m : Machine) :
    (execAll cfg k (upToReturn ns) signal e).run.run m
      = (execAll cfg k ns signal e).run.run m := by
  induction ns generalizing k signal m with
  | nil => rfl
  | cons n ns ih =>
      cases k with
      | zero => rfl
      | succ k =>
          rw [upToReturn, execAll, execAll, Run.run_bind, Run.run_bind]
          cases hn : n.isReturn with
          | true =>
              have hleaves : ∀ v, ((exec cfg k n e).run.run m).1 ≠ .ok (.normal v) :=
                leaves_exec hn k e m
              generalize (exec cfg k n e).run.run m = out at hleaves
              rcases out with ⟨_ | w | w, m'⟩
              · rfl
              · exact absurd rfl (hleaves w)
              · rfl
          | false =>
              rcases (exec cfg k n e).run.run m with ⟨_ | w | w, m'⟩
              · rfl
              · exact ih k _ m'
              · rfl

/-! ### Whole programs -/

namespace Variation

/-- To differ in statements after a return. -/
def unreached : Variation where
  nodes := SameLive
  places := Eq
  same := fun _ => rfl
  around := fun outer h => congrArg (·.or outer) h

/-- Blocks that are the same up to the first return do the same. -/
theorem follows_block {k : Nat} (h : unreached.Simulates cfg k)
    (hns : List.Forall₂ (SameLive .statement) (upToReturn ns) (upToReturn ns')) (s : Option Span)
    (e : Nat) :
    unreached.Follows Eq (execBlock cfg (k + 1) (.block ns s) e)
      (execBlock cfg (k + 2) (.block ns' s) e) := by
  intro m m' hm
  have hends := h.all (.normal none) e hns m m' hm
  rw [run_execAll_upToReturn, run_execAll_upToReturn] at hends
  exact hends

theorem sound_unreached (cfg : Settings) : unreached.Sound cfg where
  expression h := by
    cases h with
    | congruent h => exact .inl h
  statement h := by
    cases h with
    | congruent h => exact h
  block h := by
    cases h with
    | congruent h => exact .inl h
    | block hns => exact .inr fun k e hsim => follows_block hsim hns _ e
  branch h := by
    cases h with
    | congruent h => exact h

end Variation

/-- Programs that differ in statements after a return end in the same way. -/
theorem runsTo_of_sameLive {out : Except Halt Value × Machine}
    (h : List.Forall₂ (SameLive .statement) ns ns') (hout : RunsTo cfg ns out) :
    ∃ out', RunsTo cfg ns' out' ∧ SameOutcome out out' := by
  obtain ⟨out', hout', hends⟩ := Variation.runsTo_of_nodes (Variation.sound_unreached cfg) h hout
  refine ⟨out', hout', ?_⟩
  cases hends with
  | spent => exact absurd rfl hout.1
  | done result machines =>
      cases result
      exact machines.sameOutcome _
  | halted halts machines =>
      cases halts with
      | fault f hplace =>
          cases hplace
          exact machines.sameOutcome _
      | displayTooDeep => exact machines.sameOutcome _

/-- **Nothing after a return runs.** Take a program that was read from a text and accepted by the
analysis. Without the statements that follow a return in their list, in functions, branches, loops
and blocks at whatever depth, it comes to an end if and only if the program does, and in the same
way: with the same value or the same error at the same place, having printed and bound the same. -/
theorem nothing_after_return_runs (cfg : Settings) {filename source : String} {ts : List Tree}
    {ns : List Node} (hts : parseProgram filename source = .ok ts)
    (hns : analyzeTrees ts = .ok ns) :
    let left := liveProgram ns
    (∀ out, RunsTo cfg ns out → ∃ out', RunsTo cfg left out' ∧ SameOutcome out out') ∧
      ∀ out', RunsTo cfg left out' → ∃ out, RunsTo cfg ns out ∧ SameOutcome out out' := by
  have hformed := analyzeTrees_formed (parseProgram_shaped hts)
  rw [hns] at hformed
  -- the analysis accepts no return outside of functions
  have htop : upToReturn ns = ns := by
    refine Node.upToReturn_eq_self fun n hn => ?_
    cases hformed n hn <;> rfl
  have hboth : List.Forall₂ (Node.Kindred .statement) ns (liveProgram ns) := by
    have hall := Node.kindred_upToReturn fun n hn =>
      Node.kindred_live (hformed n hn)
    rwa [htop] at hall
  refine ⟨fun out hout => ?_, fun out' hout' => ?_⟩
  · exact runsTo_of_sameLive (hboth.imp fun _ _ => And.left) hout
  · obtain ⟨out, hout, hsame⟩ :=
      runsTo_of_sameLive (hboth.flip.imp fun _ _ => And.right) hout'
    exact ⟨out, hout, hsame.symm⟩

/-- Without the statements after the returns in its loop, this program prints `3` all the same. -/
theorem loop_with_unreached_statements : ∃ ts ns m m', parseProgram "sample"
      ("fun f(n) \x7b\nwhile true \x7b\nif n > 3 \x7b\nn = n - 1\n\x7d else \x7b\n"
        ++ "return n\nprint(0)\n\x7d\n\x7d\n\x7d\nprint(f(5))") = .ok ts ∧
    analyzeTrees ts = .ok ns ∧
      (liveProgram ns).map Node.listing ≠ ns.map Node.listing ∧
      RunsTo ⟨1000, false⟩ ns (.ok .unit, m) ∧ m.output = "3\n" ∧
        RunsTo ⟨1000, false⟩ (liveProgram ns) (.ok .unit, m') ∧ m'.output = "3\n" := by
  have hok : (parseProgram "sample"
      ("fun f(n) \x7b\nwhile true \x7b\nif n > 3 \x7b\nn = n - 1\n\x7d else \x7b\n"
        ++ "return n\nprint(0)\n\x7d\n\x7d\n\x7d\nprint(f(5))")).toOption.any fun ts =>
      (analyzeTrees ts).toOption.any fun ns =>
        let out := (runProgram ⟨1000, false⟩ 60 ns).run.run .fresh
        ((liveProgram ns).map Node.listing != ns.map Node.listing) &&
          (out.1.toOption.any (·.kind? == some .unit) && out.2.output == "3\n") := by
    decide +kernel
  obtain ⟨ts, hts, hok⟩ := exists_ok_of_any hok
  obtain ⟨ns, hns, hok⟩ := exists_ok_of_any hok
  obtain ⟨hfewer, hok⟩ := Bool.and_eq_true_iff.mp hok
  obtain ⟨hvalue, hprinted⟩ := Bool.and_eq_true_iff.mp hok
  generalize hrun : (runProgram ⟨1000, false⟩ 60 ns).run.run .fresh = out at hvalue hprinted
  obtain ⟨_ | v, m⟩ := out
  · cases hvalue
  · cases v with
    | unit =>
        have hhalts : (.ok .unit : Except Halt Value) ≠ .error .outOfFuel := by rintro ⟨⟩
        have hout : RunsTo ⟨1000, false⟩ ns (.ok .unit, m) := ⟨hhalts, 60, hrun⟩
        obtain ⟨⟨_, m'⟩, hout', rfl, houtput, -⟩ :=
          (nothing_after_return_runs ⟨1000, false⟩ hts hns).1 _ hout
        have hprinted : m.output = "3\n" := eq_of_beq hprinted
        exact ⟨ts, ns, m, m', hts, hns, bne_iff_ne.mp hfewer, hout, hprinted, hout',
          houtput.trans hprinted⟩
    | _ => cases hvalue

end Ember
