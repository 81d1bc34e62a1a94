import Mathlib.Logic.Function.Basic

/-!
# Interleaved Processes

Any number of processes run programs over one shared state. A program is a tree
of atomic calls: each call is carried out by a relation between the state before,
its answer and the state after, and the rest of the program depends on the answer
alone. Between two calls of one process the others may do anything.

What a program does is proved by itself, against a relation that bounds what the
others do in between (`rely`), and it has to keep to a bound of its own (`guar`);
`Run.sound` puts the programs together. A condition may restrict which calls a run
makes, given what the process has done before, so the same programs have their
free runs and the runs in which nothing goes wrong.

## Main definitions

* `Prog`: Programs of atomic calls.
* `Event`: One call as it happened.
* `Run`: The interleavings of any number of processes, with what happened.
* `Wp`: What a program does among others.
* `Bounds`: The bounds of a family of processes.
* `Alone`: Calls of one process in a row.
* `Bounds.alone`: The bounds of a process that nobody disturbs.

## Theorems

* `Wp.bind`, `Wp.mono`, `Wp.stable`: The rules of `Wp`.
* `Alone.post`: What a program does when nobody disturbs it.
* `Run.sound`: Programs that keep their bounds do so together.
* `Run.le`: What every call keeps, a run keeps.
* `Run.alone`, `Run.command`: A process may make its calls in a row.
-/

namespace Spelunk

namespace Lib

/-- Programs of atomic calls. -/
inductive Prog (Op : Type) (Res : Op → Type) (α : Type) : Type where
  | ret (a : α)
  | call (o : Op) (k : Res o → Prog Op Res α)

namespace Prog

variable {Op : Type} {Res : Op → Type} {α β : Type}

def bind : Prog Op Res α → (α → Prog Op Res β) → Prog Op Res β
  | ret a, f => f a
  | call o k, f => call o (fun r => (k r).bind f)

instance : Monad (Prog Op Res) where
  pure := ret
  bind := bind

@[simp] theorem bind_eq (p : Prog Op Res α) (f : α → Prog Op Res β) : p >>= f = p.bind f := rfl

@[simp] theorem pure_eq (a : α) : (pure a : Prog Op Res α) = ret a := rfl

end Prog

/-- One call as it happened: who made it, the answer, the states around it. -/
structure Event (ι σ : Type) (Op : Type) (Res : Op → Type) where
  pid : ι
  op : Op
  res : Res op
  before : σ
  after : σ

/-- A process: not started yet, with the rest of its program, or killed. -/
inductive Proc {Cmd : Type} (Op : Type) (Res : Op → Type) (Out : Cmd → Type) where
  | idle
  | running (c : Cmd) (p : Prog Op Res (Out c))
  | killed

/-- How a family of processes runs: what a call does, what the death of a process
    does to the state, and the program of each command. -/
structure Machinery (ι σ : Type) (Op : Type) (Res : Op → Type) (Cmd : Type) (Out : Cmd → Type) where
  exec : ι → (o : Op) → σ → Res o → σ → Prop
  die : ι → σ → σ
  prog : (c : Cmd) → Prog Op Res (Out c)

/-- The shared state and the processes. -/
structure Config (ι σ : Type) {Cmd : Type} (Op : Type) (Res : Op → Type) (Out : Cmd → Type) where
  state : σ
  procs : ι → Proc Op Res Out

section Runs

variable {ι σ Op Cmd : Type} {Res : Op → Type} {Out : Cmd → Type} [DecidableEq ι]

/-- The configuration after `i` has taken the state to `s`. -/
def Config.set (c : Config ι σ Op Res Out) (i : ι) (s : σ) (proc : Proc Op Res Out) :
    Config ι σ Op Res Out :=
  ⟨s, Function.update c.procs i proc⟩

@[simp] theorem Config.set_state (c : Config ι σ Op Res Out) (i : ι) (s : σ)
    (proc : Proc Op Res Out) : (c.set i s proc).state = s := rfl

/-- Only `i` has moved. -/
theorem Config.set_procs {c : Config ι σ Op Res Out} {i j : ι} {s : σ} {proc q : Proc Op Res Out}
    (h : (c.set i s proc).procs j = q) : (j = i ∧ proc = q) ∨ (j ≠ i ∧ c.procs j = q) := by
  rw [show (c.set i s proc).procs = Function.update c.procs i proc from rfl] at h
  by_cases hji : j = i
  · subst hji
    rw [Function.update_self] at h
    exact Or.inl ⟨rfl, h⟩
  · rw [Function.update_of_ne hji] at h
    exact Or.inr ⟨hji, h⟩

/-- What one process did. -/
def own (i : ι) (trace : List (Event ι σ Op Res)) : List (Event ι σ Op Res) :=
  trace.filter (fun e => e.pid = i)

theorem own_append (i : ι) (l l' : List (Event ι σ Op Res)) :
    own i (l ++ l') = own i l ++ own i l' :=
  List.filter_append ..

theorem own_concat_self (e : Event ι σ Op Res) (l : List (Event ι σ Op Res)) :
    own e.pid (l ++ [e]) = own e.pid l ++ [e] := by
  rw [own_append, own, own, List.filter_cons_of_pos (by simp), List.filter_nil]

theorem own_concat_of_ne {i : ι} {e : Event ι σ Op Res} (h : i ≠ e.pid) (l : List (Event ι σ Op Res)) :
    own i (l ++ [e]) = own i l := by
  rw [own_append, own, own, List.filter_cons_of_neg (by simpa using Ne.symm h), List.filter_nil,
    List.append_nil]

/-- The runs from `start` whose calls all meet `guard`, given what their process
    did before, with the calls in the order they happened. -/
inductive Run (M : Machinery ι σ Op Res Cmd Out)
    (guard : List (Event ι σ Op Res) → Event ι σ Op Res → Prop) (start : Config ι σ Op Res Out) :
    List (Event ι σ Op Res) → Config ι σ Op Res Out → Prop where
  | refl : Run M guard start [] start
  /-- A process is started. -/
  | start {trace c} (i : ι) (cmd : Cmd) : Run M guard start trace c → c.procs i = .idle →
      Run M guard start trace (c.set i c.state (.running cmd (M.prog cmd)))
  /-- A process makes its next call. -/
  | call {trace c} (e : Event ι σ Op Res) (cmd : Cmd) (k : Res e.op → Prog Op Res (Out cmd)) :
      Run M guard start trace c → c.procs e.pid = .running cmd (.call e.op k) →
      c.state = e.before → M.exec e.pid e.op e.before e.res e.after →
      guard (own e.pid trace) e →
      Run M guard start (trace ++ [e]) (c.set e.pid e.after (.running cmd (k e.res)))
  /-- A process is killed. -/
  | kill {trace c} (i : ι) (cmd : Cmd) (p : Prog Op Res (Out cmd)) : Run M guard start trace c →
      c.procs i = .running cmd p →
      Run M guard start trace (c.set i (M.die i c.state) .killed)

/-- Calls that a process makes with no other call in between. -/
inductive Alone (M : Machinery ι σ Op Res Cmd Out)
    (guard : List (Event ι σ Op Res) → Event ι σ Op Res → Prop) (i : ι) {α : Type} :
    List (Event ι σ Op Res) → Prog Op Res α → σ → List (Event ι σ Op Res) → Prog Op Res α → σ →
      Prop where
  | nil {hist p s} : Alone M guard i hist p s [] p s
  | cons {hist o} {k : Res o → Prog Op Res α} {s events p' s'} {r : Res o} {t : σ} :
      M.exec i o s r t → guard hist ⟨i, o, r, s, t⟩ →
      Alone M guard i (hist ++ [⟨i, o, r, s, t⟩]) (k r) t events p' s' →
      Alone M guard i hist (.call o k) s (⟨i, o, r, s, t⟩ :: events) p' s'

/-- The bounds of a family of processes: what holds of every state, what the
    others may do between two calls of a process, what a call may do after what its
    process did before. -/
structure Bounds (ι σ : Type) (Op : Type) (Res : Op → Type) where
  inv : σ → Prop
  rely : ι → σ → σ → Prop
  guar : List (Event ι σ Op Res) → Event ι σ Op Res → Prop

/-- The program does what it may and ends in `post`, from a state `s` in which its
    process has done `hist`. -/
def Wp (M : Machinery ι σ Op Res Cmd Out)
    (guard : List (Event ι σ Op Res) → Event ι σ Op Res → Prop) (B : Bounds ι σ Op Res) (i : ι)
    {α : Type} (post : α → List (Event ι σ Op Res) → σ → Prop) :
    List (Event ι σ Op Res) → Prog Op Res α → σ → Prop
  | hist, .ret a, s => post a hist s
  | hist, .call o k, s => ∀ t, B.rely i s t → B.inv t → ∀ r u, M.exec i o t r u →
      guard hist ⟨i, o, r, t, u⟩ →
      B.guar hist ⟨i, o, r, t, u⟩ ∧ Wp M guard B i post (hist ++ [⟨i, o, r, t, u⟩]) (k r) u

/-- The bounds of a process that nobody disturbs. -/
def Bounds.alone (ι σ : Type) (Op : Type) (Res : Op → Type) : Bounds ι σ Op Res where
  inv := fun _ => True
  rely := fun _ s t => s = t
  guar := fun _ _ => True

/-- Bounds that fit together: a call within its bound is one the others reckon with. -/
structure Bounds.Fit (B : Bounds ι σ Op Res) (M : Machinery ι σ Op Res Cmd Out) : Prop where
  refl : ∀ i s, B.rely i s s
  trans : ∀ i s t u, B.rely i s t → B.rely i t u → B.rely i s u
  call : ∀ hist (e : Event ι σ Op Res), B.inv e.before →
    M.exec e.pid e.op e.before e.res e.after → B.guar hist e →
    B.inv e.after ∧ ∀ j, j ≠ e.pid → B.rely j e.before e.after
  die : ∀ i s, B.inv s → B.inv (M.die i s) ∧ ∀ j, j ≠ i → B.rely j s (M.die i s)

variable {M : Machinery ι σ Op Res Cmd Out}
  {guard : List (Event ι σ Op Res) → Event ι σ Op Res → Prop} {B : Bounds ι σ Op Res} {i : ι}
  {α β : Type}

/-- No bounds at all. -/
def Bounds.free (ι σ : Type) (Op : Type) (Res : Op → Type) : Bounds ι σ Op Res where
  inv := fun _ => True
  rely := fun _ _ _ => True
  guar := fun _ _ => True

omit [DecidableEq ι] in
theorem Bounds.free_fit : (Bounds.free ι σ Op Res).Fit M where
  refl := fun _ _ => trivial
  trans := fun _ _ _ _ _ _ => trivial
  call := fun _ _ _ _ _ => ⟨trivial, fun _ _ => trivial⟩
  die := fun _ _ _ => ⟨trivial, fun _ _ => trivial⟩

namespace Wp

variable {post : α → List (Event ι σ Op Res) → σ → Prop} {hist : List (Event ι σ Op Res)}
  {p : Prog Op Res α} {s t : σ}

omit [DecidableEq ι] in
/-- One program after the other. -/
theorem bind {f : α → Prog Op Res β} {post : β → List (Event ι σ Op Res) → σ → Prop}
    (h : Wp M guard B i (fun a hist s => Wp M guard B i post hist (f a) s) hist p s) :
    Wp M guard B i post hist (p.bind f) s := by
  induction p generalizing hist s with
  | ret a => exact h
  | call o k ih =>
      intro t hrely hinv r u hexec hguard
      rcases h t hrely hinv r u hexec hguard with ⟨hguar, hk⟩
      exact ⟨hguar, ih r hk⟩

omit [DecidableEq ι] in
theorem mono {post' : α → List (Event ι σ Op Res) → σ → Prop} (h : Wp M guard B i post hist p s)
    (hpost : ∀ a hist s, post a hist s → post' a hist s) : Wp M guard B i post' hist p s := by
  induction p generalizing hist s with
  | ret a => exact hpost a hist s h
  | call o k ih =>
      intro t hrely hinv r u hexec hguard
      rcases h t hrely hinv r u hexec hguard with ⟨hguar, hk⟩
      exact ⟨hguar, ih r hk⟩

omit [DecidableEq ι] in
/-- What the others do does not matter if the end can take it. -/
theorem stable (hB : B.Fit M) (hpost : ∀ a hist s t, post a hist s → B.rely i s t → post a hist t)
    (h : Wp M guard B i post hist p s) (hst : B.rely i s t) : Wp M guard B i post hist p t := by
  cases p with
  | ret a => exact hpost a hist s t h hst
  | call o k => exact fun u hrely => h u (hB.trans i s t u hst hrely)

omit [DecidableEq ι] in
/-- Without bounds a program may do anything. -/
theorem free (hist : List (Event ι σ Op Res)) (p : Prog Op Res α) (s : σ) :
    Wp M guard (Bounds.free ι σ Op Res) i (fun _ _ _ => True) hist p s := by
  induction p generalizing hist s with
  | ret a => trivial
  | call o k ih => exact fun _ _ _ r _ _ _ => ⟨trivial, ih r _ _⟩

end Wp

namespace Alone

variable {hist events events' : List (Event ι σ Op Res)} {p p' p'' : Prog Op Res α} {s s' s'' : σ}

omit [DecidableEq ι] in
theorem trans (h : Alone M guard i hist p s events p' s')
    (h' : Alone M guard i (hist ++ events) p' s' events' p'' s'') :
    Alone M guard i hist p s (events ++ events') p'' s'' := by
  induction h with
  | nil => rwa [List.append_nil] at h'
  | cons hexec hguard _ ih =>
      refine .cons hexec hguard (ih ?_)
      rwa [List.append_assoc, List.singleton_append]

omit [DecidableEq ι] in
/-- The calls of the first of two programs. -/
theorem bind {f : α → Prog Op Res β} (h : Alone M guard i hist p s events p' s') :
    Alone M guard i hist (p.bind f) s events (p'.bind f) s' := by
  induction h with
  | nil => exact .nil
  | cons hexec hguard _ ih => exact .cons hexec hguard ih

omit [DecidableEq ι] in
/-- A weaker condition on the calls is met as well. -/
theorem mono {guard' : List (Event ι σ Op Res) → Event ι σ Op Res → Prop}
    (hguard : ∀ hist e, guard hist e → guard' hist e)
    (h : Alone M guard i hist p s events p' s') : Alone M guard' i hist p s events p' s' := by
  induction h with
  | nil => exact .nil
  | cons hexec hg _ ih => exact .cons hexec (hguard _ _ hg) ih

omit [DecidableEq ι] in
/-- Where no condition is made on the calls, it does not matter what came before. -/
theorem unguarded (h : Alone M guard i hist p s events p' s')
    (hist' : List (Event ι σ Op Res)) :
    Alone M (fun _ _ => True) i hist' p s events p' s' := by
  induction h generalizing hist' with
  | nil => exact .nil
  | cons hexec _ _ ih => exact .cons hexec trivial (ih _)

omit [DecidableEq ι] in
/-- What a program does when nobody disturbs it. -/
theorem post {Q : α → List (Event ι σ Op Res) → σ → Prop} {a : α}
    (hwp : Wp M guard (Bounds.alone ι σ Op Res) i Q hist p s)
    (h : Alone M guard i hist p s events (.ret a) s') : Q a (hist ++ events) s' := by
  generalize hp' : Prog.ret a = p' at h
  induction h with
  | nil =>
      subst hp'
      rw [List.append_nil]
      exact hwp
  | cons hexec hguard _ ih =>
      rcases hwp _ rfl trivial _ _ hexec hguard with ⟨_, hk⟩
      rw [← List.singleton_append, ← List.append_assoc]
      exact ih hk hp'

end Alone

namespace Run

variable {start c : Config ι σ Op Res Out} {trace : List (Event ι σ Op Res)}

omit [DecidableEq ι] in
/-- A call of a longer trace is the last one or one before it. -/
theorem eq_or_split {l l' r : List (Event ι σ Op Res)} {e e' : Event ι σ Op Res}
    (h : l' ++ [e'] = l ++ e :: r) : (l' = l ∧ e' = e) ∨ ∃ r', l' = l ++ e :: r' := by
  rcases List.eq_nil_or_concat r with rfl | ⟨r', e'', rfl⟩
  · rcases List.append_inj' h rfl with ⟨rfl, he⟩
    exact Or.inl ⟨rfl, (List.cons.inj he).1⟩
  · rw [List.concat_eq_append, ← List.cons_append, ← List.append_assoc] at h
    exact Or.inr ⟨r', (List.append_inj' h rfl).1⟩

/-- A run up to one of its calls. -/
theorem split {l r : List (Event ι σ Op Res)} {e : Event ι σ Op Res}
    (h : Run M guard start trace c) (htrace : trace = l ++ e :: r) :
    (∃ c', Run M guard start l c' ∧ c'.state = e.before) ∧
      M.exec e.pid e.op e.before e.res e.after ∧ guard (own e.pid l) e := by
  induction h generalizing r with
  | refl => exact absurd htrace (by simp)
  | start _ _ _ _ ih => exact ih htrace
  | call e' cmd k hrun hrunning hstate hexec hguard ih =>
      rcases eq_or_split htrace with ⟨rfl, rfl⟩ | ⟨r', htrace⟩
      · exact ⟨⟨_, hrun, hstate⟩, hexec, hguard⟩
      · exact ih htrace
  | kill _ _ _ _ _ ih => exact ih htrace

/-- What a run keeps if its calls keep it, each where it happened, given the calls
    before it. -/
theorem invariant {J : List (Event ι σ Op Res) → σ → Prop} (h : Run M guard start trace c)
    (hstart : J [] start.state) (hdie : ∀ l i s, J l s → J l (M.die i s))
    (hcall : ∀ l e r, trace = l ++ e :: r → J l e.before → J (l ++ [e]) e.after) :
    J trace c.state := by
  induction h with
  | refl => exact hstart
  | start _ _ _ _ ih => exact ih hcall
  | call e cmd k _ _ hstate _ _ ih =>
      refine hcall _ e [] rfl (hstate ▸ ih (fun l e' r htrace => hcall l e' (r ++ [e]) ?_))
      rw [htrace, List.append_assoc, List.cons_append]
  | kill i _ _ _ _ ih => exact hdie _ i _ (ih hcall)

/-- A process may make its next calls with no other call in between. -/
theorem alone {cmd : Cmd} {p p' : Prog Op Res (Out cmd)} {s' : σ} {events : List (Event ι σ Op Res)}
    (h : Run M guard start trace c) (hp : c.procs i = .running cmd p)
    (ha : Alone M guard i (own i trace) p c.state events p' s') :
    Run M guard start (trace ++ events) (c.set i s' (.running cmd p')) := by
  generalize hhist : own i trace = hist at ha
  generalize hs : c.state = s at ha
  induction ha generalizing c trace with
  | nil =>
      subst hs
      rw [List.append_nil, Config.set, ← hp, Function.update_eq_self]
      exact h
  | @cons hist o k s events p' s' r t hexec hguard _ ih =>
      have hnext := Run.call ⟨i, o, r, s, t⟩ cmd k h hp hs hexec (hhist ▸ hguard)
      have hrest := ih hnext (Function.update_self ..)
        ((own_concat_self (⟨i, o, r, s, t⟩ : Event ι σ Op Res) trace).trans (by rw [hhist])) rfl
      rw [Config.set, Config.set, Function.update_idem, List.append_assoc] at hrest
      exact hrest

/-- A process that has not been started has done nothing. -/
theorem own_of_idle (h : Run M guard start trace c) {i : ι} (hi : c.procs i = .idle) : own i trace = [] := by
  induction h with
  | refl => rfl
  | start _ _ _ _ ih =>
      rcases Config.set_procs hi with ⟨_, hq⟩ | ⟨_, hi⟩
      · exact absurd hq (by simp)
      · exact ih hi
  | call e _ _ _ _ _ _ _ ih =>
      rcases Config.set_procs hi with ⟨_, hq⟩ | ⟨hne, hi⟩
      · exact absurd hq (by simp)
      · rw [own_concat_of_ne hne, ih hi]
  | kill _ _ _ _ _ ih =>
      rcases Config.set_procs hi with ⟨_, hq⟩ | ⟨_, hi⟩
      · exact absurd hq (by simp)
      · exact ih hi

/-- A command may be started and make its calls with no other call in between. -/
theorem command (h : Run M guard start trace c) {i : ι} (hi : c.procs i = .idle) {cmd : Cmd} {p : Prog Op Res (Out cmd)} {s : σ}
    {events : List (Event ι σ Op Res)}
    (ha : Alone M guard i [] (M.prog cmd) c.state events p s) :
    Run M guard start (trace ++ events) (c.set i s (.running cmd p)) := by
  have hstarted := Run.start i cmd h hi
  rw [← own_of_idle h hi] at ha
  have hdone := alone hstarted (Function.update_self ..) ha
  rwa [Config.set, Config.set, Function.update_idem] at hdone

/-- What every call and every death keeps, a run keeps. -/
theorem le {r : σ → σ → Prop} (hrefl : ∀ s, r s s) (htrans : ∀ s t u, r s t → r t u → r s u)
    (hdie : ∀ i s, r s (M.die i s)) (h : Run M guard start trace c)
    (hcall : ∀ e ∈ trace, r e.before e.after) :
    r start.state c.state ∧ ∀ e ∈ trace, r start.state e.before ∧ r e.after c.state := by
  induction h with
  | refl => exact ⟨hrefl _, fun e he => absurd he List.not_mem_nil⟩
  | start _ _ _ _ ih => exact ih hcall
  | call e cmd k _ _ hstate _ _ ih =>
      rcases ih (fun e' he' => hcall e' (List.mem_append_left _ he')) with ⟨hrun, hevents⟩
      have hlast : r e.before e.after := hcall e (List.mem_append_right _ List.mem_cons_self)
      rw [hstate] at hrun hevents
      refine ⟨htrans _ _ _ hrun hlast, fun e' he' => ?_⟩
      rcases List.mem_append.mp he' with he' | he'
      · exact ⟨(hevents e' he').1, htrans _ _ _ (hevents e' he').2 hlast⟩
      · rw [List.mem_singleton.mp he']
        exact ⟨hrun, hrefl _⟩
  | kill i cmd p _ _ ih =>
      rcases ih hcall with ⟨hrun, hevents⟩
      exact ⟨htrans _ _ _ hrun (hdie i _), fun e he =>
        ⟨(hevents e he).1, htrans _ _ _ (hevents e he).2 (hdie i _)⟩⟩

/-- Programs that keep their bounds by themselves do so together. -/
theorem sound (hB : B.Fit M)
    (post : (i : ι) → (cmd : Cmd) → Out cmd → List (Event ι σ Op Res) → σ → Prop)
    (hpost : ∀ i cmd a hist s t, post i cmd a hist s → B.rely i s t → post i cmd a hist t)
    (hspec : ∀ i cmd s, B.inv s → Wp M guard B i (post i cmd) [] (M.prog cmd) s)
    (hstart : B.inv start.state) (hidle : ∀ i, start.procs i = .idle)
    (h : Run M guard start trace c) :
    B.inv c.state ∧
      (∀ l e r, trace = l ++ e :: r → B.inv e.before ∧ B.guar (own e.pid l) e) ∧
      (∀ i, c.procs i = .idle → own i trace = []) ∧
      ∀ i cmd p, c.procs i = .running cmd p →
        Wp M guard B i (post i cmd) (own i trace) p c.state := by
  induction h with
  | refl =>
      refine ⟨hstart, fun l e r h => absurd h (by simp), fun _ _ => rfl, fun i cmd p hp => ?_⟩
      rw [hidle i] at hp
      exact absurd hp (by simp)
  | start i cmd _ hi ih =>
      rcases ih with ⟨hinv, hevents, hfresh, hprocs⟩
      refine ⟨hinv, hevents, fun j hj => ?_, fun j cmd' p hj => ?_⟩
      · rcases Config.set_procs hj with ⟨_, hq⟩ | ⟨_, hj⟩
        · exact absurd hq (by simp)
        · exact hfresh j hj
      · rcases Config.set_procs hj with ⟨rfl, hq⟩ | ⟨_, hj⟩
        · rw [Proc.running.injEq] at hq
          rcases hq with ⟨rfl, hp⟩
          rw [← eq_of_heq hp, hfresh j hi]
          exact hspec j _ _ hinv
        · exact hprocs j cmd' p hj
  | call e cmd k _ hrunning hstate hexec hguard ih =>
      rcases ih with ⟨hinv, hevents, hfresh, hprocs⟩
      have hwp := hprocs e.pid cmd _ hrunning
      rw [hstate] at hinv hprocs hwp
      -- The call is within its bound, and so one the other processes reckon with.
      rcases hwp e.before (hB.refl _ _) hinv e.res e.after hexec hguard with ⟨hguar, hk⟩
      rcases hB.call _ e hinv hexec hguar with ⟨hinv', hrely⟩
      refine ⟨hinv', fun l e' r htrace => ?_, fun j hj => ?_, fun j cmd' p hj => ?_⟩
      · rcases eq_or_split htrace with ⟨rfl, rfl⟩ | ⟨r', htrace⟩
        · exact ⟨hinv, hguar⟩
        · exact hevents l e' r' htrace
      · rcases Config.set_procs hj with ⟨_, hq⟩ | ⟨hne, hj⟩
        · exact absurd hq (by simp)
        · rw [own_concat_of_ne hne, hfresh j hj]
      · rcases Config.set_procs hj with ⟨rfl, hq⟩ | ⟨hne, hj⟩
        · rw [Proc.running.injEq] at hq
          rcases hq with ⟨rfl, hp⟩
          rw [← eq_of_heq hp, own_concat_self]
          exact hk
        · rw [own_concat_of_ne hne]
          exact Wp.stable hB (hpost j cmd') (hprocs j cmd' p hj) (hrely j hne)
  | kill i cmd p _ hi ih =>
      rcases ih with ⟨hinv, hevents, hfresh, hprocs⟩
      rcases hB.die i _ hinv with ⟨hinv', hrely⟩
      refine ⟨hinv', hevents, fun j hj => ?_, fun j cmd' p' hj => ?_⟩
      · rcases Config.set_procs hj with ⟨_, hq⟩ | ⟨_, hj⟩
        · exact absurd hq (by simp)
        · exact hfresh j hj
      · rcases Config.set_procs hj with ⟨_, hq⟩ | ⟨hne, hj⟩
        · exact absurd hq (by simp)
        · exact Wp.stable hB (hpost j cmd') (hprocs j cmd' p' hj) (hrely j hne)

end Run

end Runs

end Lib

end Spelunk
