import EffectCalculus.Counter
import EffectCalculus.Proofs.Effect.Task
import EffectCalculus.Script.Interpret

/-!
# Steady hosts

Scripts and counting programs are steady hosts: whatever they do, they do by handing out tasks, and
nothing in them can tell a task that was cut short from one that never ends. So their bounds are not
seen in what ends.

* `fmap_follows`, `sequence_follows`, …: the combinators follow the tasks that they hand out;
* `Script.Expr.eval_follows`, `Script.Build.build_follows`: so do expressions and computations, by
  recursion on the script;
* `Script.host_steady`, `Counter.host_steady`: **the hosts are steady**;
* `Script.performer_below`: a larger bound changes nothing about a script that ends, although it
  bounds the tasks and the bodies of blocks at once.
-/

namespace EffectCalculus

open Run

variable {σ F P α : Type}

theorem Follows.ite (b : Bool) {f g : Performer σ F P → Act σ α} (hf : Follows f)
    (hg : Follows g) : Follows fun go => if b then f go else g go := by
  cases b with
  | true => exact hf
  | false => exact hg

/-! ## Hosts with larger bounds -/

/-- Whatever the first host ends, the second ends in the same way, if the same tasks are done for
both. -/
structure Host.ExtendedBy (host host' : Host σ F P) : Prop where
  call (go : Performer σ F P) (f : F) (args : List (Datum F P)) :
    Run.Below (host.call go f args) (host'.call go f args)
  start (go : Performer σ F P) (f : F) : Run.Below (host.start go f) (host'.start go f)
  resume (go : Performer σ F P) (p : P) (d : Datum F P) :
    Run.Below (host.resume go p d) (host'.resume go p d)

namespace Host.ExtendedBy

variable {host host' : Host σ F P} (h : host.ExtendedBy host')

include h

theorem callWith (go : Performer σ F P) (f : Fn F P) (args : List (Datum F P)) :
    Below (f.callWith host go args) (f.callWith host' go args) := by
  unfold Fn.callWith
  split
  case h_1 => exact h.call go _ _
  case h_15 => exact (h.start go _).bind fun _ => Below.refl _
  case h_17 => exact (h.resume go _ _).bind fun _ => Below.refl _
  all_goals exact Below.refl _

theorem attempt (go : Performer σ F P) (t : Task F P) :
    Below (t.attempt host go) (t.attempt host' go) := by
  cases t with
  | call f args => exact h.callWith go f args
  | bind d f => cases d <;> exact Below.refl _
  | map d f => cases d <;> exact Below.refl _
  | _ => exact Below.refl _

theorem perform_below (hs : host'.Steady) (n : Nat) :
    (perform host n).Below (perform host' n) := by
  induction n with
  | zero => exact fun t => Below.refl _
  | succ n ih => exact fun t => (h.attempt _ t).trans (Task.attempt_below hs ih t)

end Host.ExtendedBy

/-! ## Combinators -/

section Combinators

variable (f : Fn F P) (d : Datum F P) (effect : Option Effect)

theorem fmap_follows : Follows fun go : Performer σ F P => fmap go f d :=
  (Follows.const _).bind fun _ => Follows.task _

theorem fmap2_follows (d' : Datum F P) : Follows fun go : Performer σ F P => fmap2 go f d d' :=
  (Follows.const _).bind fun _ => Follows.task _

theorem collect_follows (cells : Datum F P) (items : List (Datum F P)) :
    Follows fun go : Performer σ F P => collect go cells items := by
  induction items generalizing cells with
  | nil => exact Follows.const _
  | cons item items ih => exact (fmap2_follows _ _ _).bind fun cells => ih cells

theorem sequence_follows (items : List (Datum F P)) :
    Follows fun go : Performer σ F P => sequence go items effect :=
  (Follows.const _).bind fun _ => (Follows.const _).bind fun cells =>
    (collect_follows cells items).bind fun cells => fmap_follows _ cells

theorem callEach_follows (items : List (Datum F P)) :
    Follows fun go : Performer σ F P => callEach go f items := by
  induction items with
  | nil => exact Follows.const _
  | cons x xs ih => exact (Follows.task _).bind fun y => ih.bind fun ys => Follows.const _

theorem traverse_follows (items : List (Datum F P)) :
    Follows fun go : Performer σ F P => traverse go f items effect :=
  (callEach_follows f items).bind fun computations => sequence_follows effect computations

theorem forEach_follows (items : List (Datum F P)) :
    Follows fun go : Performer σ F P => forEach go items f effect :=
  (traverse_follows f effect items).bind fun results => fmap_follows _ results

theorem replicate_follows (n : Int) : Follows fun go : Performer σ F P => replicate go n d := by
  unfold replicate
  split
  · exact Follows.const _
  · exact (Follows.const _).bind fun c => sequence_follows _ _

theorem block_follows (e : Effect) : Follows fun go : Performer σ F P => block go e f :=
  (Follows.const _).bind fun _ => Follows.task _

theorem Comp.filter_follows (c : Comp F P) :
    Follows fun go : Performer σ F P => c.filter go f := by
  cases c with
  | some v =>
    have kept : Follows fun go : Performer σ F P => Optional.filter go f (.some v) :=
      (Follows.task _).bind fun _ => Follows.const _
    exact kept.bind fun _ => Follows.const _
  | _ => exact Follows.const _

theorem Effect.lift_follows (e : Effect) : Follows fun go : Performer σ F P => e.lift go d := by
  refine (Follows.const _).bind fun base => (Follows.const _).bind fun c => ?_
  split
  · exact Follows.const _
  · exact Follows.const _
  · exact (Follows.task _).bind fun inner => Follows.const _
  · exact Follows.const _

end Combinators

/-! ## Scripts -/

namespace Script

theorem iterate_follows (k : Fn Closure Process) (n : Nat) (d : Item) :
    Follows fun go : Go => iterate go k n d := by
  induction n generalizing d with
  | zero => exact Follows.const _
  | succ n ih => exact (Follows.task _).bind fun d => ih d

mutual

theorem Expr.eval_follows (e : Expr) (scope : Scope) : Follows fun go : Go => e.eval go scope := by
  match e with
  | .lit _ | .var _ | .raise _ => exact Follows.const _
  | .list items | .tuple items =>
    exact (evalEach_follows items scope).bind fun vs => Follows.const _
  | .arith _ a b | .eq a b | .concat a b | .nth a b =>
    exact (Expr.eval_follows a scope).bind fun a =>
      (Expr.eval_follows b scope).bind fun b => Follows.const _
  | .len a | .range a | .trace _ a | .literal a =>
    exact (Expr.eval_follows a scope).bind fun a => Follows.const _
  | .ite c t f =>
    exact (Expr.eval_follows c scope).bind fun c => (Follows.const _).bind fun b =>
      Follows.ite b (Expr.eval_follows t scope) (Expr.eval_follows f scope)
  | .comp c => exact Build.build_follows c scope

theorem evalEach_follows (es : List Expr) (scope : Scope) :
    Follows fun go : Go => evalEach go es scope := by
  match es with
  | [] => exact Follows.const _
  | e :: es =>
    exact (Expr.eval_follows e scope).bind fun v =>
      (evalEach_follows es scope).bind fun vs => Follows.const _

theorem Build.build_follows (c : Build) (scope : Scope) :
    Follows fun go : Go => c.build go scope := by
  match c with
  | .absent | .ask | .asks _ | .get | .gets _ | .modify _ | .state _ => exact Follows.const _
  | .askT _ | .getT _ | .absentT _ | .raw _ _ => exact Follows.const _
  | .value v => exact Expr.eval_follows v scope
  | .present v | .ofNullable v | .identity v | .put v =>
    exact (Expr.eval_follows v scope).bind fun v => Follows.const _
  | .unit _ v | .putT _ v =>
    exact (Follows.const _).bind fun e =>
      (Expr.eval_follows v scope).bind fun v => Follows.const _
  | .letIn x bound body =>
    exact (Build.build_follows bound scope).bind fun v =>
      Build.build_follows body (scope.extend x v)
  | .ite c t f =>
    exact (Expr.eval_follows c scope).bind fun c => (Follows.const _).bind fun b =>
      Follows.ite b (Build.build_follows t scope) (Build.build_follows f scope)
  | .within _ source =>
    exact (Build.build_follows source scope).bind fun d => Follows.const _
  | .orElse a b =>
    exact (Build.build_follows a scope).bind fun a => (Follows.const _).bind fun a =>
      (Build.build_follows b scope).bind fun b => Follows.const _
  | .wrap _ source =>
    exact (Follows.const _).bind fun e =>
      (Build.build_follows source scope).bind fun d => Follows.const _
  | .lift _ source =>
    exact (Follows.const _).bind fun e =>
      (Build.build_follows source scope).bind fun d => Effect.lift_follows d e
  | .filter source f =>
    exact (Build.build_follows source scope).bind fun d => (Follows.const _).bind fun c =>
      Comp.filter_follows _ c
  | .bind source _ | .map source _ =>
    exact (Build.build_follows source scope).bind fun d => (Follows.const _).bind fun c =>
      Follows.task _
  | .andThen source next =>
    exact (Build.build_follows source scope).bind fun d => (Follows.const _).bind fun c =>
      (Build.build_follows next scope).bind fun d => Follows.task _
  | .iterate source n k =>
    exact (Build.build_follows source scope).bind fun d => (Follows.const _).bind fun c =>
      iterate_follows _ _ _
  | .fmap f source =>
    exact (Build.build_follows source scope).bind fun d => (Follows.const _).bind fun c =>
      fmap_follows _ _
  | .fmap2 f a b =>
    exact (Build.build_follows a scope).bind fun a => (Follows.const _).bind fun a =>
      (Build.build_follows b scope).bind fun b => (Follows.const _).bind fun b =>
        fmap2_follows _ _ _
  | .sequence items m =>
    exact (buildEach_follows items scope).bind fun cs => (Follows.const _).bind fun e =>
      sequence_follows e _
  | .traverse items k m =>
    exact (Expr.eval_follows items scope).bind fun d => (Follows.const _).bind fun xs =>
      (Follows.const _).bind fun e => traverse_follows _ e xs
  | .forEach items k m =>
    exact (Expr.eval_follows items scope).bind fun d => (Follows.const _).bind fun xs =>
      (Follows.const _).bind fun e => forEach_follows _ e xs
  | .replicate n source =>
    exact (Build.build_follows source scope).bind fun d => (Follows.const _).bind fun c =>
      replicate_follows _ n
  | .block _ _ | .plainBlock _ _ =>
    exact (Follows.const _).bind fun e => block_follows _ e

theorem buildEach_follows (cs : List Build) (scope : Scope) :
    Follows fun go : Go => buildEach go cs scope := by
  match cs with
  | [] => exact Follows.const _
  | c :: cs =>
    exact (Build.build_follows c scope).bind fun d => (Follows.const _).bind fun c =>
      (buildEach_follows cs scope).bind fun cs => Follows.const _

end

/-- The work of a body up to its next yield. The recursion is on the bound, and each step is one
statement or one turn of a loop. -/
theorem advance_follows (n : Nat) (scope : Scope) (work : List Work) :
    Follows fun go : Go => advance go n scope work := by
  induction n generalizing scope work with
  | zero => exact Follows.const _
  | succ n ih =>
    match work with
    | [] => exact Follows.const _
    | .stmts [] :: work => exact ih scope work
    | .stmts (.bind x c :: rest) :: work =>
      exact (Build.build_follows c scope).bind fun d => Follows.const _
    | .stmts (.exec c :: rest) :: work =>
      exact (Build.build_follows c scope).bind fun d => Follows.const _
    | .stmts (.assign x v :: rest) :: work =>
      exact (Expr.eval_follows v scope).bind fun v => ih (scope.extend x v) _
    | .stmts (.ret v :: rest) :: work =>
      exact (Expr.eval_follows v scope).bind fun v => Follows.const _
    | .stmts (.ite c t f :: rest) :: work =>
      exact (Expr.eval_follows c scope).bind fun c => (Follows.const _).bind fun b => ih scope _
    | .stmts (.each x items body :: rest) :: work =>
      exact (Expr.eval_follows items scope).bind fun d => (Follows.const _).bind fun xs =>
        ih scope _
    | .loop _ [] _ :: work => exact ih scope work
    | .loop x (v :: vs) body :: work => exact ih (scope.extend x v) _

theorem Closure.call_follows (c : Closure) (args : List Item) :
    Follows fun go : Go => c.call go args := by
  unfold Closure.call
  split
  · split
    · exact Expr.eval_follows _ _
    · exact Follows.const _
  · exact Build.build_follows _ _
  · exact Expr.eval_follows _ _
  · exact Follows.const _

/-- **Scripts are steady.** -/
theorem host_steady (bound : Nat) : (host bound).Steady where
  call h c args := c.call_follows args h
  start _ c := Below.refl c.toProcess
  resume h p v := by
    cases p with
    | mk scope target work => exact advance_follows bound _ work h

/-- Within a larger bound, the work up to the next yield ends as before. -/
theorem advance_below_succ (go : Go) (n : Nat) (scope : Scope) (work : List Work) :
    Below (advance go n scope work) (advance go (n + 1) scope work) := by
  induction n generalizing scope work with
  | zero => exact unfinished_below _
  | succ n ih =>
    match work with
    | [] => exact Below.refl _
    | .stmts [] :: work => exact ih scope work
    | .stmts (.bind _ _ :: _) :: _ | .stmts (.exec _ :: _) :: _ | .stmts (.ret _ :: _) :: _ =>
      exact Below.refl _
    | .stmts (.assign x v :: rest) :: work =>
      exact (Below.refl _).bind fun v => ih (scope.extend x v) _
    | .stmts (.ite c t f :: rest) :: work =>
      exact (Below.refl _).bind fun c => (Below.refl _).bind fun b => ih scope _
    | .stmts (.each x items body :: rest) :: work =>
      exact (Below.refl _).bind fun d => (Below.refl _).bind fun xs => ih scope _
    | .loop _ [] _ :: work => exact ih scope work
    | .loop x (v :: vs) body :: work => exact ih (scope.extend x v) _

theorem host_extendedBy {m n : Nat} (h : m ≤ n) : (host m).ExtendedBy (host n) where
  call _ _ _ := Below.refl _
  start _ _ := Below.refl _
  resume go p _ := by
    cases p with
    | mk scope target work =>
      exact below_of_succ (fun k => advance_below_succ go k _ work) h

/-- **A larger bound changes nothing about a script that ends.** -/
theorem performer_below {m n : Nat} (h : m ≤ n) : (performer m).Below (performer n) :=
  fun t =>
  ((host_extendedBy h).perform_below (host_steady n) m t).trans (perform_below (host_steady n) h t)

end Script

/-! ## Counting programs -/

namespace Counter

theorem Stage.resume_follows (s : Stage) (d : Item) : Follows fun go : Go => s.resume go d := by
  match s with
  | .opening (.countUp n) => exact (forEach_follows _ _ _).bind fun steps => Follows.const _
  | .opening (.fibState n) =>
    simp only [Stage.resume]
    split
    · exact Follows.const _
    · exact (block_follows _ _).bind fun before => Follows.const _
  | .stepOn => exact (block_follows _ _).bind fun step => Follows.const _
  | .opening .increment | .opening .fibStep | .opening (.fibLoop _) | .bump | .finish | .readOut
  | .handOn | .shift | .loop 0 | .loop (_ + 1) | .shiftLoop _ | .current => exact Follows.const _

/-- **Counting programs are steady.** -/
theorem host_steady : host.Steady where
  call h f _ := by
    cases f with
    | body r => exact Below.refl _
    | making r => exact block_follows _ _ h
  start _ f := by
    cases f <;> exact Below.refl _
  resume h s d := s.resume_follows d h

end Counter

end EffectCalculus
