import Mathlib.Data.List.Basic

/-!
# Statements, Faults and Transactions

A small language of database programs over an arbitrary store type. A program
is a function of a connection: the store and a countdown of how many statements
the storage still serves before one fails. A failed statement has no effect of
its own, but the statements before it stay done, so what a program leaves
behind when it stops half way is part of its meaning. `transaction` is the one
construct that takes effects back.

A few judgements are enough to reason about such programs. `Survives` says that
a program answers, with a postcondition, unless a fault stops it, and what a
fault leaves behind; `Serves` is `Survives` without the last part; `Answers` is
about connections without faults, where a caught failure is not one; `Keeps`
says that an invariant of the store survives the program whatever happens;
`Post` says what each of the two outcomes leaves behind, and `Errors` what the
errors can be. Each has one rule per construct.

## Main definitions

* `Conn`: A store and its fault countdown.
* `Sql`: Programs over a store.
* `statement`: One statement: all or nothing.
* `transaction`: A program whose effects are undone when it fails.
* `forEach`, `foldEach`: Loops over a list.
* `zoom`: A program over a part of the store.
* `Survives`, `Serves`, `Answers`, `Keeps`, `Post`, `Errors`: The judgements.

## Theorems

* `transaction_undone`: A failed transaction leaves the store as it was.
* `Survives.bind`, `Survives.foldEach`: Sequencing and loops, unless a fault stops them.
* `Keeps.bind`, `Keeps.forEach`: Sequencing and loops, with any fault.
* `Post.bind`, `Post.attempt`, `Post.transaction`: Outcomes told apart.
-/

namespace Spelunk

namespace Lib

/-- What a statement or a program can fail with. -/
inductive SqlError where
  /-- The storage failed: disk, lock, or the process was stopped here. -/
  | io
  /-- A UNIQUE constraint refused the statement. -/
  | unique
  /-- A FOREIGN KEY constraint refused the statement. -/
  | foreignKey
  /-- Any other check of the schema or of the program. -/
  | refused (message : String)
deriving DecidableEq, Repr

/-- A connection: the store, and how many statements it still serves. `none`
    serves all of them. -/
structure Conn (σ : Type) where
  db : σ
  failAfter : Option Nat

/-- A program over the store `σ`. -/
def Sql (σ α : Type) : Type :=
  Conn σ → Except SqlError α × Conn σ

namespace Sql

variable {σ α β ι : Type}

/-- Answer without a statement. -/
def ok (a : α) : Sql σ α := fun c => (.ok a, c)

/-- Fail without a statement. -/
def fail (e : SqlError) : Sql σ α := fun c => (.error e, c)

/-- Run `m`, then `f` on its answer; a failure skips the rest. -/
def andThen (m : Sql σ α) (f : α → Sql σ β) : Sql σ β := fun c =>
  match m c with
  | (.ok a, c') => f a c'
  | (.error e, c') => (.error e, c')

instance : Monad (Sql σ) where
  pure := ok
  bind := andThen

/-- One statement: it reads and writes the store, or is refused and does
    neither. A countdown that has run out fails it, once. -/
def statement (f : σ → Except SqlError (α × σ)) : Sql σ α := fun c =>
  match c.failAfter with
  | some 0 => (.error .io, { c with failAfter := none })
  | left =>
      match f c.db with
      | .ok (a, db) => (.ok a, { db := db, failAfter := left.map (· - 1) })
      | .error e => (.error e, { c with failAfter := left.map (· - 1) })

/-- A statement that only reads. -/
def query (f : σ → α) : Sql σ α := statement (fun db => .ok (f db, db))

/-- What a statement that only reads answers. -/
theorem query_ok {f : σ → α} {db : σ} {failAfter : Option Nat} {a : α}
    (h : (query f ⟨db, failAfter⟩).1 = .ok a) : a = f db := by
  rw [query, statement] at h
  split at h
  · cases h
  · simp only [] at h
    exact (Except.ok.inj h).symm

/-- A statement that only writes. -/
def execute (f : σ → Except SqlError σ) : Sql σ Unit :=
  statement (fun db => (f db).map (fun db' => ((), db')))

/-- BEGIN, `body`, COMMIT; any failure, of COMMIT too, restores the store. -/
def transaction (body : Sql σ α) : Sql σ α := fun c =>
  match (query (fun _ => ())).andThen (fun _ => body.andThen (fun a =>
      (query (fun _ => ())).andThen (fun _ => ok a))) c with
  | (.ok a, c') => (.ok a, c')
  | (.error e, c') => (.error e, { c' with db := c.db })

/-- Run `m`; a failure is swallowed and reported as `none`. -/
def attempt (m : Sql σ α) : Sql σ (Except SqlError α) := fun c =>
  ((.ok (m c).1), (m c).2)

/-- Run `m` for its effect when `b` holds. -/
def whenever (b : Prop) [Decidable b] (m : Sql σ α) : Sql σ Unit :=
  if b then m.andThen (fun _ => ok ()) else ok ()

/-- Run `f` on each element in turn, threading a value. -/
def foldEach : List ι → β → (β → ι → Sql σ β) → Sql σ β
  | [], b, _ => ok b
  | x :: l, b, f => (f b x).andThen (fun b' => foldEach l b' f)

/-- Run `f` on each element in turn. -/
def forEach (l : List ι) (f : ι → Sql σ Unit) : Sql σ Unit :=
  foldEach l () (fun _ x => f x)

/-- A program over a part of the store. -/
def zoom {τ : Type} (get : σ → τ) (set : σ → τ → σ) (m : Sql τ α) : Sql σ α := fun c =>
  ((m ⟨get c.db, c.failAfter⟩).1,
    ⟨set c.db (m ⟨get c.db, c.failAfter⟩).2.db, (m ⟨get c.db, c.failAfter⟩).2.failAfter⟩)

@[simp] theorem pure_eq (a : α) : (pure a : Sql σ α) = ok a := rfl

@[simp] theorem bind_eq (m : Sql σ α) (f : α → Sql σ β) : m >>= f = m.andThen f := rfl

theorem andThen_assoc {γ : Type} (m : Sql σ α) (f : α → Sql σ β) (g : β → Sql σ γ) :
    (m.andThen f).andThen g = m.andThen (fun a => (f a).andThen g) := by
  funext c
  simp only [andThen]
  rcases m c with ⟨_ | a, c'⟩ <;> rfl

/-- A loop over a list and then over another. -/
theorem foldEach_append (l l' : List ι) (b : β) (f : β → ι → Sql σ β) :
    foldEach (l ++ l') b f = (foldEach l b f).andThen (fun b' => foldEach l' b' f) := by
  induction l generalizing b with
  | nil => rfl
  | cons x l ih =>
      rw [List.cons_append, foldEach, foldEach, andThen_assoc]
      congr 1
      funext b'
      exact ih b'

/-- A refused statement leaves the connection as it was. -/
theorem statement_refused {f : σ → Except SqlError (α × σ)} {db : σ} {e : SqlError}
    (h : f db = .error e) : statement f ⟨db, none⟩ = (.error e, ⟨db, none⟩) := by
  simp only [statement, h, Option.map_none]

/-- A failed transaction leaves the store as it was. -/
theorem transaction_undone (body : Sql σ α) (c : Conn σ) (e : SqlError)
    (h : (transaction body c).1 = .error e) : (transaction body c).2.db = c.db := by
  revert h
  simp only [transaction]
  split
  · intro h
    exact absurd h (by simp)
  · intro _
    rfl

/-- Unless a fault stops it, `m` answers from a store with `P`, and answer and
    store then satisfy `Q`; a fault that stops it leaves a store with `E`. -/
def Survives (P : σ → Prop) (m : Sql σ α) (Q : α → σ → Prop) (E : σ → Prop) : Prop :=
  ∀ c, P c.db →
    (∃ a, (m c).1 = .ok a ∧ Q a (m c).2.db ∧ (c.failAfter = none → (m c).2.failAfter = none)) ∨
      (c.failAfter ≠ none ∧ (∃ e, (m c).1 = .error e) ∧ E (m c).2.db)

namespace Survives

variable {P P' : σ → Prop} {Q Q' : α → σ → Prop} {R : β → σ → Prop} {E E' : σ → Prop}
  {m : Sql σ α}

theorem ok (a : α) (h : ∀ s, P s → Q a s) : Survives P (Sql.ok a) Q E :=
  fun _ hc => Or.inl ⟨a, rfl, h _ hc, fun hf => hf⟩

theorem mono (h : Survives P m Q E) (hP : ∀ s, P' s → P s) (hQ : ∀ a s, Q a s → Q' a s)
    (hE : ∀ s, E s → E' s) : Survives P' m Q' E' := by
  intro c hc
  rcases h c (hP _ hc) with ⟨a, ha, hq, hf⟩ | ⟨hfault, he, hs⟩
  · exact Or.inl ⟨a, ha, hQ _ _ hq, hf⟩
  · exact Or.inr ⟨hfault, he, hE _ hs⟩

theorem bind {f : α → Sql σ β} (hm : Survives P m Q E) (hf : ∀ a, Survives (Q a) (f a) R E) :
    Survives P (m.andThen f) R E := by
  intro c hc
  rcases hrun : m c with ⟨r, c'⟩
  rcases hm c hc with ⟨a, ha, hq, hnone⟩ | ⟨hfault, ⟨e, he⟩, hs⟩
  · rw [hrun] at ha hq hnone
    simp only at ha hq hnone
    subst ha
    simp only [andThen, hrun]
    rcases hf a c' hq with ⟨b, hb, hr, hnone'⟩ | ⟨hfault, he, hs⟩
    · exact Or.inl ⟨b, hb, hr, fun h => hnone' (hnone h)⟩
    · exact Or.inr ⟨fun h => hfault (hnone h), he, hs⟩
  · rw [hrun] at he hs
    simp only at he hs
    subst he
    refine Or.inr ⟨hfault, ⟨e, ?_⟩, ?_⟩
    · simp only [andThen, hrun]
    · simpa only [andThen, hrun] using hs

theorem statement {f : σ → Except SqlError (α × σ)}
    (h : ∀ s, P s → ∃ a s', f s = .ok (a, s') ∧ Q a s') (hE : ∀ s, P s → E s) :
    Survives P (Sql.statement f) Q E := by
  intro c hc
  rcases h c.db hc with ⟨a, s', hf, hq⟩
  rcases hleft : c.failAfter with _ | k
  · left
    simp only [Sql.statement, hleft, hf]
    exact ⟨a, rfl, hq, fun _ => rfl⟩
  · cases k with
    | zero =>
        right
        simp only [Sql.statement, hleft]
        exact ⟨by simp, ⟨_, rfl⟩, hE _ hc⟩
    | succ k =>
        left
        simp only [Sql.statement, hleft, hf]
        exact ⟨a, rfl, hq, fun h => absurd h (by simp)⟩

theorem query {f : σ → α} (h : ∀ s, P s → Q (f s) s) (hE : ∀ s, P s → E s) :
    Survives P (Sql.query f) Q E :=
  statement (fun s hs => ⟨f s, s, rfl, h s hs⟩) hE

theorem execute {f : σ → Except SqlError σ} {R : Unit → σ → Prop}
    (h : ∀ s, P s → ∃ s', f s = .ok s' ∧ R () s') (hE : ∀ s, P s → E s) :
    Survives P (Sql.execute f) R E :=
  statement (fun s hs => by
    rcases h s hs with ⟨s', hf, hr⟩
    exact ⟨(), s', by rw [hf]; rfl, hr⟩) hE

/-- A statement whose failure the program looks at: it goes on from the refusals
    there may be, and gives up at a fault. -/
theorem attempt {f : σ → Except SqlError (α × σ)} {g : Except SqlError α → Sql σ β}
    {T : Except SqlError α → σ → Prop}
    (hok : ∀ s a s', P s → f s = .ok (a, s') → T (.ok a) s')
    (herr : ∀ s e, P s → f s = .error e → T (.error e) s)
    (hg : ∀ r, Survives (T r) (g r) R E)
    (hio : ∀ c, P c.db → (∃ e, (g (.error .io) c).1 = .error e) ∧ E (g (.error .io) c).2.db) :
    Survives P ((Sql.attempt (Sql.statement f)).andThen g) R E := by
  intro c hc
  by_cases hfault : c.failAfter = some 0
  · right
    simp only [andThen, Sql.attempt, Sql.statement, hfault]
    exact ⟨by simp, hio _ hc⟩
  · -- No fault here, so the statement answers or is refused.
    have hmap : c.failAfter = none ↔ c.failAfter.map (· - 1) = none := by
      rw [Option.map_eq_none_iff]
    have hgo : ∀ r s', T r s' → Sql.statement f c = (r, ⟨s', c.failAfter.map (· - 1)⟩) →
        (∃ b, (((Sql.attempt (Sql.statement f)).andThen g) c).1 = .ok b ∧
          R b (((Sql.attempt (Sql.statement f)).andThen g) c).2.db ∧
          (c.failAfter = none →
            (((Sql.attempt (Sql.statement f)).andThen g) c).2.failAfter = none)) ∨
          (c.failAfter ≠ none ∧
            (∃ e, (((Sql.attempt (Sql.statement f)).andThen g) c).1 = .error e) ∧
            E (((Sql.attempt (Sql.statement f)).andThen g) c).2.db) := by
      intro r s' ht hrun
      simp only [andThen, Sql.attempt, hrun]
      rcases hg r ⟨s', c.failAfter.map (· - 1)⟩ ht with ⟨b, hb, hr, hnone⟩ | ⟨hne, he, hs⟩
      · exact Or.inl ⟨b, hb, hr, fun hn => hnone (hmap.mp hn)⟩
      · exact Or.inr ⟨fun hn => hne (hmap.mp hn), he, hs⟩
    rcases hf : f c.db with e | ⟨a, s'⟩
    · refine hgo (.error e) c.db (herr _ e hc hf) ?_
      rcases hleft : c.failAfter with _ | _ | k
      · simp only [Sql.statement, hleft, hf]
      · exact absurd hleft hfault
      · simp only [Sql.statement, hleft, hf]
    · refine hgo (.ok a) s' (hok _ a s' hc hf) ?_
      rcases hleft : c.failAfter with _ | _ | k
      · simp only [Sql.statement, hleft, hf]
      · exact absurd hleft hfault
      · simp only [Sql.statement, hleft, hf]

/-- A transaction that a fault stops is back where it started. -/
theorem transaction {F : σ → Prop} (h : Survives P m Q F) (hE : ∀ s, P s → E s) :
    Survives P (Sql.transaction m) Q E := by
  have hbody : Survives P ((Sql.query (fun _ => ())).andThen (fun _ => m.andThen (fun a =>
      (Sql.query (fun _ => ())).andThen (fun _ => Sql.ok a)))) Q (fun _ => True) :=
    bind (query (Q := fun _ s => P s) (fun _ hs => hs) (fun _ _ => trivial)) (fun _ =>
      bind (mono h (fun _ hs => hs) (fun _ _ hs => hs) (fun _ _ => trivial)) (fun a =>
        bind (query (Q := fun _ s => Q a s) (fun _ hs => hs) (fun _ _ => trivial))
          (fun _ => ok a (fun _ hs => hs))))
  intro c hc
  rcases hrun : (Sql.query (fun _ => ())).andThen (fun _ => m.andThen (fun a =>
      (Sql.query (fun _ => ())).andThen (fun _ => Sql.ok a))) c with ⟨r, c'⟩
  rcases hbody c hc with ⟨a, ha, hq, hnone⟩ | ⟨hfault, ⟨e, he⟩, _⟩
  · rw [hrun] at ha hq hnone
    simp only at ha hq hnone
    subst ha
    left
    simp only [Sql.transaction, hrun]
    exact ⟨a, rfl, hq, hnone⟩
  · rw [hrun] at he
    simp only at he
    subst he
    right
    simp only [Sql.transaction, hrun]
    exact ⟨hfault, ⟨e, rfl⟩, hE _ hc⟩

/-- A fact that does not depend on the store may be taken out of a precondition. -/
theorem of_pre {p : Prop} (h : p → Survives P m Q E) : Survives (fun s => p ∧ P s) m Q E :=
  fun c hc => h hc.1 c hc.2

theorem of_exists {P : ι → σ → Prop} (h : ∀ i, Survives (P i) m Q E) :
    Survives (fun s => ∃ i, P i s) m Q E :=
  fun c ⟨i, hi⟩ => h i c hi

/-- A precondition is a choice of stores to start from. -/
theorem of_each (h : ∀ s, P s → Survives (fun t => t = s) m Q E) : Survives P m Q E :=
  fun c hc => h c.db hc c rfl

theorem whenever {b : Prop} [Decidable b] {R : Unit → σ → Prop}
    (hpos : b → Survives P m (fun _ s => R () s) E) (hneg : ¬ b → ∀ s, P s → R () s) :
    Survives P (Sql.whenever b m) R E := by
  by_cases hb : b
  · rw [Sql.whenever, if_pos hb]
    exact bind (hpos hb) (fun _ => ok () (fun _ hs => hs))
  · rw [Sql.whenever, if_neg hb]
    exact ok () (hneg hb)

/-- A loop with an invariant over the elements done so far. -/
theorem foldEach {I : List ι → β → σ → Prop} {f : β → ι → Sql σ β} (l : List ι) (b : β)
    (hstep : ∀ done x rest b, l = done ++ x :: rest →
      Survives (I done b) (f b x) (fun b' s => I (done ++ [x]) b' s) E) :
    Survives (I [] b) (Sql.foldEach l b f) (fun b' s => I l b' s) E := by
  have hall : ∀ rest done b, l = done ++ rest →
      Survives (I done b) (Sql.foldEach rest b f) (fun b' s => I l b' s) E := by
    intro rest
    induction rest with
    | nil =>
        intro done b hl
        rw [List.append_nil] at hl
        exact ok b (fun s hs => hl ▸ hs)
    | cons x rest ih =>
        intro done b hl
        exact bind (hstep done x rest b hl)
          (fun b' => ih (done ++ [x]) b' (by rw [hl, List.append_assoc]; rfl))
  exact hall l [] b rfl

theorem forEach {I : List ι → σ → Prop} {f : ι → Sql σ Unit} (l : List ι)
    (hstep : ∀ done x rest, l = done ++ x :: rest →
      Survives (I done) (f x) (fun _ s => I (done ++ [x]) s) E) :
    Survives (I []) (Sql.forEach l f) (fun _ s => I l s) E :=
  foldEach (I := fun done _ s => I done s) l () (fun done x rest _ hl => hstep done x rest hl)

/-- A caught program always answers. -/
theorem caught {E' : σ → Prop} (h : Survives P m Q E) :
    Survives P (Sql.attempt m) (fun r s => (∃ a, r = .ok a ∧ Q a s) ∨ ((∃ e, r = .error e) ∧ E s))
      E' := by
  intro c hc
  rcases h c hc with ⟨a, ha, hq, hnone⟩ | ⟨hfault, ⟨e, he⟩, hs⟩
  · exact Or.inl ⟨(m c).1, rfl, Or.inl ⟨a, ha, hq⟩, hnone⟩
  · exact Or.inl ⟨(m c).1, rfl, Or.inr ⟨⟨e, he⟩, hs⟩, fun h => absurd h hfault⟩

/-- A program over a part of the store leaves the rest as it is. -/
theorem zoom {τ : Type} {get : σ → τ} {set : σ → τ → σ} {P : τ → Prop} {m : Sql τ α}
    {Q : α → τ → Prop} {E : τ → Prop} {F : σ → Prop} (hget : ∀ s t, get (set s t) = t)
    (hF : ∀ s t, F s → F (set s t)) (h : Survives P m Q E) :
    Survives (fun s => P (get s) ∧ F s) (Sql.zoom get set m) (fun a s => Q a (get s) ∧ F s)
      (fun s => E (get s) ∧ F s) := by
  intro c hc
  simp only [Sql.zoom, hget]
  rcases h ⟨get c.db, c.failAfter⟩ hc.1 with ⟨a, ha, hq, hnone⟩ | ⟨hfault, he, hs⟩
  · exact Or.inl ⟨a, ha, ⟨hq, hF _ _ hc.2⟩, hnone⟩
  · exact Or.inr ⟨hfault, he, hs, hF _ _ hc.2⟩

/-- A program that survives always answers on a connection without faults. -/
theorem run_ok (h : Survives P m Q E) {c : Conn σ} (hc : P c.db) (hnone : c.failAfter = none) :
    ∃ a, (m c).1 = .ok a ∧ Q a (m c).2.db ∧ (m c).2.failAfter = none := by
  rcases h c hc with ⟨a, ha, hq, hf⟩ | ⟨hfault, _⟩
  · exact ⟨a, ha, hq, hf hnone⟩
  · exact absurd hnone hfault

/-- Whenever it answers, its postcondition holds. -/
theorem post (h : Survives P m Q E) {c : Conn σ} (hc : P c.db) {a : α} (ha : (m c).1 = .ok a) :
    Q a (m c).2.db := by
  rcases h c hc with ⟨a', ha', hq, _⟩ | ⟨_, ⟨e, he⟩, _⟩
  · rw [ha, Except.ok.injEq] at ha'
    exact ha' ▸ hq
  · rw [ha] at he
    exact absurd he (by simp)

end Survives

/-- Unless a fault stops it, `m` answers from a store with `P`, and answer and
    store then satisfy `Q`. -/
def Serves (P : σ → Prop) (m : Sql σ α) (Q : α → σ → Prop) : Prop :=
  Survives P m Q (fun _ => True)

namespace Serves

variable {P P' : σ → Prop} {Q Q' : α → σ → Prop} {R : β → σ → Prop} {m : Sql σ α}

theorem ok (a : α) (h : ∀ s, P s → Q a s) : Serves P (Sql.ok a) Q :=
  Survives.ok a h

theorem mono (h : Serves P m Q) (hP : ∀ s, P' s → P s) (hQ : ∀ a s, Q a s → Q' a s) :
    Serves P' m Q' :=
  Survives.mono h hP hQ (fun _ hs => hs)

theorem bind {f : α → Sql σ β} (hm : Serves P m Q) (hf : ∀ a, Serves (Q a) (f a) R) :
    Serves P (m.andThen f) R :=
  Survives.bind hm hf

theorem statement {f : σ → Except SqlError (α × σ)}
    (h : ∀ s, P s → ∃ a s', f s = .ok (a, s') ∧ Q a s') : Serves P (Sql.statement f) Q :=
  Survives.statement h (fun _ _ => trivial)

theorem query {f : σ → α} (h : ∀ s, P s → Q (f s) s) : Serves P (Sql.query f) Q :=
  Survives.query h (fun _ _ => trivial)

theorem execute {f : σ → Except SqlError σ} {R : Unit → σ → Prop}
    (h : ∀ s, P s → ∃ s', f s = .ok s' ∧ R () s') : Serves P (Sql.execute f) R :=
  Survives.execute h (fun _ _ => trivial)

/-- A statement whose failure the program looks at. The only failure it has here
    is a fault, and on that one the program gives up. -/
theorem attempt {f : σ → Except SqlError (α × σ)} {g : Except SqlError α → Sql σ β}
    (h : ∀ s, P s → ∃ a s', f s = .ok (a, s') ∧ Q a s') (hg : ∀ a, Serves (Q a) (g (.ok a)) R)
    (hio : ∀ c, ∃ e, (g (.error .io) c).1 = .error e) :
    Serves P ((Sql.attempt (Sql.statement f)).andThen g) R := by
  refine Survives.attempt (T := fun r s => ∃ a, r = .ok a ∧ Q a s) (fun s a s' hs hf => ?_)
    (fun s e hs hf => ?_) (fun r => Survives.of_exists (fun a => Survives.of_pre (fun hr => ?_)))
    (fun c _ => ⟨hio c, trivial⟩)
  · rcases h s hs with ⟨a', s'', hf', hq⟩
    rw [hf, Except.ok.injEq, Prod.mk.injEq] at hf'
    exact ⟨a, rfl, by rw [hf'.1, hf'.2]; exact hq⟩
  · rcases h s hs with ⟨a', s'', hf', _⟩
    rw [hf] at hf'
    exact absurd hf' (by simp)
  · rw [hr]
    exact hg a

theorem transaction (h : Serves P m Q) : Serves P (Sql.transaction m) Q :=
  Survives.transaction h (fun _ _ => trivial)

theorem of_pre {p : Prop} (h : p → Serves P m Q) : Serves (fun s => p ∧ P s) m Q :=
  Survives.of_pre h

theorem of_exists {P : ι → σ → Prop} (h : ∀ i, Serves (P i) m Q) :
    Serves (fun s => ∃ i, P i s) m Q :=
  Survives.of_exists h

theorem whenever {b : Prop} [Decidable b] {R : Unit → σ → Prop}
    (hpos : b → Serves P m (fun _ s => R () s)) (hneg : ¬ b → ∀ s, P s → R () s) :
    Serves P (Sql.whenever b m) R :=
  Survives.whenever hpos hneg

theorem foldEach {I : List ι → β → σ → Prop} {f : β → ι → Sql σ β} (l : List ι) (b : β)
    (hstep : ∀ done x rest b, l = done ++ x :: rest →
      Serves (I done b) (f b x) (fun b' s => I (done ++ [x]) b' s)) :
    Serves (I [] b) (Sql.foldEach l b f) (fun b' s => I l b' s) :=
  Survives.foldEach l b hstep

theorem forEach {I : List ι → σ → Prop} {f : ι → Sql σ Unit} (l : List ι)
    (hstep : ∀ done x rest, l = done ++ x :: rest →
      Serves (I done) (f x) (fun _ s => I (done ++ [x]) s)) :
    Serves (I []) (Sql.forEach l f) (fun _ s => I l s) :=
  Survives.forEach l hstep

theorem run_ok (h : Serves P m Q) {c : Conn σ} (hc : P c.db) (hnone : c.failAfter = none) :
    ∃ a, (m c).1 = .ok a ∧ Q a (m c).2.db ∧ (m c).2.failAfter = none :=
  Survives.run_ok h hc hnone

/-- The same for a program with one possible store behind it. -/
theorem run_eq {db db' : σ} (h : Serves (fun s => s = db) m (fun _ s => s = db')) :
    ∃ a, m ⟨db, none⟩ = (.ok a, ⟨db', none⟩) := by
  rcases h.run_ok (c := ⟨db, none⟩) rfl rfl with ⟨a, ha, hdb, hnone⟩
  rcases hrun : m ⟨db, none⟩ with ⟨r, ⟨s, left⟩⟩
  rw [hrun] at ha hdb hnone
  simp only at ha hdb hnone
  exact ⟨a, by rw [ha, hdb, hnone]⟩

theorem post (h : Serves P m Q) {c : Conn σ} (hc : P c.db) {a : α} (ha : (m c).1 = .ok a) :
    Q a (m c).2.db :=
  Survives.post h hc ha

end Serves

/-- `m` leaves a store with `I` when started on one, whether it answers, is
    refused, or stops at a fault. -/
def Keeps (I : σ → Prop) (m : Sql σ α) : Prop :=
  ∀ c, I c.db → I (m c).2.db

namespace Keeps

variable {I : σ → Prop} {m : Sql σ α}

theorem ok (a : α) : Keeps I (Sql.ok a) := fun _ h => h

theorem fail (e : SqlError) : Keeps I (Sql.fail e : Sql σ α) := fun _ h => h

theorem bind {f : α → Sql σ β} (hm : Keeps I m) (hf : ∀ a, Keeps I (f a)) :
    Keeps I (m.andThen f) := by
  intro c hc
  have hmid := hm c hc
  rcases hrun : m c with ⟨r, c'⟩
  rw [hrun] at hmid
  simp only [andThen, hrun]
  cases r with
  | ok a => exact hf a c' hmid
  | error e => exact hmid

theorem statement {f : σ → Except SqlError (α × σ)}
    (h : ∀ s a s', I s → f s = .ok (a, s') → I s') : Keeps I (Sql.statement f) := by
  intro c hc
  simp only [Sql.statement]
  split
  · exact hc
  · split
    · next a s' hf => exact h _ a s' hc hf
    · exact hc

theorem query (f : σ → α) : Keeps I (Sql.query f) :=
  statement (fun s a s' hs hf => by
    rw [Except.ok.injEq, Prod.mk.injEq] at hf
    exact hf.2 ▸ hs)

theorem execute {f : σ → Except SqlError σ} (h : ∀ s s', I s → f s = .ok s' → I s') :
    Keeps I (Sql.execute f) :=
  statement (fun s a s' hs hf => by
    rcases hfs : f s with e | s''
    · rw [hfs] at hf
      exact absurd hf (by simp [Except.map])
    · rw [hfs] at hf
      simp only [Except.map, Except.ok.injEq, Prod.mk.injEq] at hf
      exact hf.2 ▸ h s s'' hs hfs)

theorem attempt (h : Keeps I m) : Keeps I (Sql.attempt m) := h

theorem whenever {b : Prop} [Decidable b] (h : Keeps I m) : Keeps I (Sql.whenever b m) := by
  rw [Sql.whenever]
  split
  · exact bind h (fun _ => ok ())
  · exact ok ()

theorem transaction (h : Keeps I m) : Keeps I (Sql.transaction m) := by
  have hbody : Keeps I ((Sql.query (fun _ => ())).andThen (fun _ => m.andThen (fun a =>
      (Sql.query (fun _ => ())).andThen (fun _ => Sql.ok a)))) :=
    bind (query _) (fun _ => bind h (fun a => bind (query _) (fun _ => ok a)))
  intro c hc
  have hrun := hbody c hc
  simp only [Sql.transaction]
  split
  · next a c' heq =>
    rw [heq] at hrun
    exact hrun
  · exact hc

theorem foldEach {f : β → ι → Sql σ β} (l : List ι) (b : β)
    (hstep : ∀ b, ∀ x ∈ l, Keeps I (f b x)) : Keeps I (Sql.foldEach l b f) := by
  induction l generalizing b with
  | nil => exact ok b
  | cons x l ih =>
      exact bind (hstep b x List.mem_cons_self)
        (fun b' => ih b' (fun b y hy => hstep b y (List.mem_cons_of_mem _ hy)))

theorem forEach {f : ι → Sql σ Unit} (l : List ι) (hstep : ∀ x ∈ l, Keeps I (f x)) :
    Keeps I (Sql.forEach l f) :=
  foldEach l () (fun _ x hx => hstep x hx)

end Keeps

/-- From a store with `P`, an answer `a` leaves a store with `Q a`, and a failure
    one with `E`. -/
def Post (P : σ → Prop) (m : Sql σ α) (Q : α → σ → Prop) (E : σ → Prop) : Prop :=
  ∀ c, P c.db → (∀ a, (m c).1 = .ok a → Q a (m c).2.db) ∧ (∀ e, (m c).1 = .error e → E (m c).2.db)

namespace Post

variable {P P' : σ → Prop} {Q Q' : α → σ → Prop} {R : β → σ → Prop} {E E' : σ → Prop}
  {m : Sql σ α}

theorem mono (h : Post P m Q E) (hP : ∀ s, P' s → P s) (hQ : ∀ a s, Q a s → Q' a s)
    (hE : ∀ s, E s → E' s) : Post P' m Q' E' :=
  fun c hc => ⟨fun a ha => hQ _ _ ((h c (hP _ hc)).1 a ha),
    fun e he => hE _ ((h c (hP _ hc)).2 e he)⟩

theorem of_survives (h : Survives P m Q E) : Post P m Q E := by
  intro c hc
  rcases h c hc with ⟨a, ha, hq, _⟩ | ⟨_, ⟨e, he⟩, hs⟩
  · refine ⟨fun b hb => ?_, fun e he => absurd (ha.symm.trans he) (by simp)⟩
    rw [ha, Except.ok.injEq] at hb
    exact hb ▸ hq
  · exact ⟨fun b hb => absurd (he.symm.trans hb) (by simp), fun _ _ => hs⟩

theorem of_keeps {I : σ → Prop} (h : Keeps I m) : Post I m (fun _ s => I s) I :=
  fun c hc => ⟨fun _ _ => h c hc, fun _ _ => h c hc⟩

theorem keeps {I : σ → Prop} (h : Post I m (fun _ s => I s) I) : Keeps I m := by
  intro c hc
  rcases hrun : (m c).1 with e | a
  · exact (h c hc).2 e hrun
  · exact (h c hc).1 a hrun

/-- What a program keeps in any case holds beside the outcome. -/
theorem and_keeps {I : σ → Prop} (h : Post P m Q E) (hI : Keeps I m) :
    Post (fun s => P s ∧ I s) m (fun a s => Q a s ∧ I s) (fun s => E s ∧ I s) :=
  fun c hc => ⟨fun a ha => ⟨(h c hc.1).1 a ha, hI c hc.2⟩, fun e he => ⟨(h c hc.1).2 e he, hI c hc.2⟩⟩

/-- Whatever the outcome, a store with `P` becomes one with `I`. -/
theorem ends {I : σ → Prop} (h : Post P m (fun _ s => I s) I) {c : Conn σ} (hc : P c.db) :
    I (m c).2.db := by
  rcases hrun : (m c).1 with e | a
  · exact (h c hc).2 e hrun
  · exact (h c hc).1 a hrun

theorem ok (a : α) (h : ∀ s, P s → Q a s) : Post P (Sql.ok a) Q E :=
  fun _ hc => ⟨fun a' ha' => by
    rw [show a' = a from (Except.ok.inj ha').symm]
    exact h _ hc, fun e he => absurd he (by simp [Sql.ok])⟩

theorem fail (e : SqlError) (h : ∀ s, P s → E s) : Post P (Sql.fail e) Q E :=
  fun _ hc => ⟨fun a ha => absurd ha (by simp [Sql.fail]), fun _ _ => h _ hc⟩

theorem bind {f : α → Sql σ β} (hm : Post P m Q E) (hf : ∀ a, Post (Q a) (f a) R E) :
    Post P (m.andThen f) R E := by
  intro c hc
  have hmid := hm c hc
  rcases hrun : m c with ⟨r, c'⟩
  rw [hrun] at hmid
  cases r with
  | ok a =>
      simp only [andThen, hrun]
      exact hf a c' (hmid.1 a rfl)
  | error e =>
      simp only [andThen, hrun]
      exact ⟨fun b hb => absurd hb (by simp), fun _ _ => hmid.2 e rfl⟩

theorem statement {f : σ → Except SqlError (α × σ)}
    (h : ∀ s a s', P s → f s = .ok (a, s') → Q a s') (hE : ∀ s, P s → E s) :
    Post P (Sql.statement f) Q E := by
  intro c hc
  simp only [Sql.statement]
  split
  · exact ⟨fun a ha => absurd ha (by simp), fun _ _ => hE _ hc⟩
  · split
    · next a s' hf =>
      refine ⟨fun a' ha' => ?_, fun e he => absurd he (by simp)⟩
      rw [show a' = a from (Except.ok.inj ha').symm]
      exact h _ a s' hc hf
    · exact ⟨fun a ha => absurd ha (by simp), fun _ _ => hE _ hc⟩

theorem execute {f : σ → Except SqlError σ} {R : Unit → σ → Prop}
    (h : ∀ s s', P s → f s = .ok s' → R () s') (hE : ∀ s, P s → E s) :
    Post P (Sql.execute f) R E :=
  statement (fun s a s' hs hf => by
    rcases hfs : f s with e | s''
    · rw [hfs] at hf
      exact absurd hf (by simp [Except.map])
    · rw [hfs] at hf
      simp only [Except.map, Except.ok.injEq, Prod.mk.injEq] at hf
      exact hf.2 ▸ h s s'' hs hfs) hE

theorem query (f : σ → α) (h : ∀ s, P s → Q (f s) s) (hE : ∀ s, P s → E s) :
    Post P (Sql.query f) Q E :=
  statement (fun s a s' hs hf => by
    rw [Except.ok.injEq, Prod.mk.injEq] at hf
    rw [← hf.1, ← hf.2]
    exact h s hs) hE

/-- A fact that does not depend on the store may be taken out of a precondition. -/
theorem of_pre {p : Prop} (h : p → Post P m Q E) : Post (fun s => p ∧ P s) m Q E :=
  fun c hc => h hc.1 c hc.2

theorem of_exists {P : ι → σ → Prop} (h : ∀ i, Post (P i) m Q E) :
    Post (fun s => ∃ i, P i s) m Q E :=
  fun c ⟨i, hi⟩ => h i c hi

/-- A precondition is a choice of stores to start from. -/
theorem of_each (h : ∀ s, P s → Post (fun t => t = s) m Q E) : Post P m Q E :=
  fun c hc => h c.db hc c rfl

/-- A precondition that does not depend on the store is a fact. -/
theorem of_fact {p : Prop} (h : p → Post (fun _ => True) m Q E) : Post (fun _ => p) m Q E :=
  fun c hc => h hc c trivial

/-- A swallowed failure: the answer says which of the two happened. -/
theorem attempt {Q' : Except SqlError α → σ → Prop} (h : Post P m Q E)
    (hok : ∀ a s, Q a s → Q' (.ok a) s) (herr : ∀ e s, E s → Q' (.error e) s) :
    Post P (Sql.attempt m) Q' E' := by
  intro c hc
  refine ⟨fun r hr => ?_, fun e he => absurd he (by simp [Sql.attempt])⟩
  rw [show r = (m c).1 from (Except.ok.inj hr).symm]
  rcases hrun : (m c).1 with e | a
  · exact herr e _ ((h c hc).2 e hrun)
  · exact hok a _ ((h c hc).1 a hrun)

theorem whenever {b : Prop} [Decidable b] {R : Unit → σ → Prop}
    (hpos : b → Post P m (fun _ s => R () s) E) (hneg : ¬ b → ∀ s, P s → R () s) :
    Post P (Sql.whenever b m) R E := by
  by_cases hb : b
  · rw [Sql.whenever, if_pos hb]
    exact bind (hpos hb) (fun _ => ok () (fun _ hs => hs))
  · rw [Sql.whenever, if_neg hb]
    exact ok () (hneg hb)

/-- A loop with an invariant over the elements done so far. -/
theorem foldEach {I : List ι → β → σ → Prop} {f : β → ι → Sql σ β} (l : List ι) (b : β)
    (hstep : ∀ done x rest b, l = done ++ x :: rest →
      Post (I done b) (f b x) (fun b' s => I (done ++ [x]) b' s) E) :
    Post (I [] b) (Sql.foldEach l b f) (fun b' s => I l b' s) E := by
  have hall : ∀ rest done b, l = done ++ rest →
      Post (I done b) (Sql.foldEach rest b f) (fun b' s => I l b' s) E := by
    intro rest
    induction rest with
    | nil =>
        intro done b hl
        rw [List.append_nil] at hl
        exact ok b (fun s hs => hl ▸ hs)
    | cons x rest ih =>
        intro done b hl
        exact bind (hstep done x rest b hl)
          (fun b' => ih (done ++ [x]) b' (by rw [hl, List.append_assoc]; rfl))
  exact hall l [] b rfl

/-- A transaction that fails is back where it started. -/
theorem transaction {F : σ → Prop} (h : Post P m Q F) (hE : ∀ s, P s → E s) :
    Post P (Sql.transaction m) Q E := by
  have hbody : Post P ((Sql.query (fun _ => ())).andThen (fun _ => m.andThen (fun a =>
      (Sql.query (fun _ => ())).andThen (fun _ => Sql.ok a)))) Q (fun _ => True) :=
    bind (query (Q := fun _ s => P s) _ (fun _ hs => hs) (fun _ _ => trivial)) (fun _ =>
      bind (mono h (fun _ hs => hs) (fun _ _ hs => hs) (fun _ _ => trivial)) (fun a =>
        bind (query (Q := fun _ s => Q a s) _ (fun _ hs => hs) (fun _ _ => trivial)) (fun _ =>
          ok a (fun _ hs => hs))))
  intro c hc
  have hrun := hbody c hc
  simp only [Sql.transaction]
  split
  · next a c' heq =>
    rw [heq] at hrun
    exact ⟨fun a' ha' => hrun.1 a' ha', fun e he => absurd he (by simp)⟩
  · exact ⟨fun a ha => absurd ha (by simp), fun _ _ => hE _ hc⟩

end Post

/-- From a store with `P`, an answer `a` leaves a store with `Q a`, and every error
    is an `F`, the storage's own included. -/
def Errors (P : σ → Prop) (m : Sql σ α) (Q : α → σ → Prop) (F : SqlError → Prop) : Prop :=
  ∀ c, P c.db → (∀ a, (m c).1 = .ok a → Q a (m c).2.db) ∧ (∀ e, (m c).1 = .error e → F e)

namespace Errors

variable {P P' : σ → Prop} {Q Q' : α → σ → Prop} {R : β → σ → Prop} {F : SqlError → Prop}
  {m : Sql σ α}

theorem ok (a : α) (h : ∀ s, P s → Q a s) : Errors P (Sql.ok a) Q F :=
  fun _ hc => ⟨fun a' ha' => by
    rw [show a' = a from (Except.ok.inj ha').symm]
    exact h _ hc, fun e he => absurd he (by simp [Sql.ok])⟩

theorem fail (e : SqlError) (h : ∀ s, P s → F e) : Errors P (Sql.fail e) Q F :=
  fun _ hc => ⟨fun a ha => absurd ha (by simp [Sql.fail]), fun e' he' => by
    rw [show e' = e from (Except.error.inj he').symm]
    exact h _ hc⟩

theorem bind {f : α → Sql σ β} (hm : Errors P m Q F) (hf : ∀ a, Errors (Q a) (f a) R F) :
    Errors P (m.andThen f) R F := by
  intro c hc
  have hmid := hm c hc
  rcases hrun : m c with ⟨r, c'⟩
  rw [hrun] at hmid
  cases r with
  | ok a =>
      simp only [andThen, hrun]
      exact hf a c' (hmid.1 a rfl)
  | error e =>
      simp only [andThen, hrun]
      refine ⟨fun b hb => absurd hb (by simp), fun e' he' => ?_⟩
      rw [show e' = e from (Except.error.inj he').symm]
      exact hmid.2 e rfl

theorem statement {f : σ → Except SqlError (α × σ)} (hio : F .io)
    (h : ∀ s a s', P s → f s = .ok (a, s') → Q a s') (hrefused : ∀ s e, P s → f s = .error e → F e) :
    Errors P (Sql.statement f) Q F := by
  intro c hc
  simp only [Sql.statement]
  split
  · refine ⟨fun a ha => absurd ha (by simp), fun e he => ?_⟩
    rw [show e = .io from (Except.error.inj he).symm]
    exact hio
  · split
    · next a s' hf =>
      refine ⟨fun a' ha' => ?_, fun e he => absurd he (by simp)⟩
      rw [show a' = a from (Except.ok.inj ha').symm]
      exact h _ a s' hc hf
    · next e hf =>
      refine ⟨fun a ha => absurd ha (by simp), fun e' he' => ?_⟩
      rw [show e' = e from (Except.error.inj he').symm]
      exact hrefused _ e hc hf

theorem query (hio : F .io) (f : σ → α) (h : ∀ s, P s → Q (f s) s) : Errors P (Sql.query f) Q F :=
  statement hio (fun s a s' hs hf => by
    rw [Except.ok.injEq, Prod.mk.injEq] at hf
    rw [← hf.1, ← hf.2]
    exact h s hs) (fun s e _ hf => absurd hf (by simp))

theorem whenever {b : Prop} [Decidable b] {R : Unit → σ → Prop}
    (hpos : b → Errors P m (fun _ s => R () s) F) (hneg : ¬ b → ∀ s, P s → R () s) :
    Errors P (Sql.whenever b m) R F := by
  by_cases hb : b
  · rw [Sql.whenever, if_pos hb]
    exact bind (hpos hb) (fun _ => ok () (fun _ hs => hs))
  · rw [Sql.whenever, if_neg hb]
    exact ok () (hneg hb)

/-- A loop whose rounds all start from a store with `P`. -/
theorem foldEach {f : β → ι → Sql σ β} (l : List ι) (b : β)
    (hstep : ∀ b, ∀ x ∈ l, Errors P (f b x) (fun _ s => P s) F) :
    Errors P (Sql.foldEach l b f) (fun _ s => P s) F := by
  induction l generalizing b with
  | nil => exact ok b (fun _ hs => hs)
  | cons x l ih =>
      exact bind (hstep b x List.mem_cons_self)
        (fun b' => ih b' (fun b y hy => hstep b y (List.mem_cons_of_mem _ hy)))

end Errors

/-- On a connection without faults `m` answers from a store with `P`, and answer
    and store then satisfy `Q`. -/
def Answers (P : σ → Prop) (m : Sql σ α) (Q : α → σ → Prop) : Prop :=
  ∀ s, P s → ∃ a s', m ⟨s, none⟩ = (.ok a, ⟨s', none⟩) ∧ Q a s'

namespace Answers

variable {P P' : σ → Prop} {Q Q' : α → σ → Prop} {R : β → σ → Prop} {m : Sql σ α}

theorem of_serves (h : Serves P m Q) : Answers P m Q := by
  intro s hs
  rcases h.run_ok (c := ⟨s, none⟩) hs rfl with ⟨a, ha, hq, hnone⟩
  rcases hrun : m ⟨s, none⟩ with ⟨r, ⟨s', left⟩⟩
  rw [hrun] at ha hq hnone
  simp only at ha hq hnone
  exact ⟨a, s', by rw [ha, hnone], hq⟩

theorem mono (h : Answers P m Q) (hP : ∀ s, P' s → P s) (hQ : ∀ a s, Q a s → Q' a s) :
    Answers P' m Q' := by
  intro s hs
  rcases h s (hP s hs) with ⟨a, s', hrun, hq⟩
  exact ⟨a, s', hrun, hQ a s' hq⟩

/-- What a program keeps in any case it also keeps when it answers. -/
theorem and_keeps {I : σ → Prop} (h : Answers P m Q) (hI : Keeps I m) :
    Answers (fun s => P s ∧ I s) m (fun a s => Q a s ∧ I s) := by
  intro s hs
  rcases h s hs.1 with ⟨a, s', hrun, hq⟩
  have hkept := hI ⟨s, none⟩ hs.2
  rw [hrun] at hkept
  exact ⟨a, s', hrun, hq, hkept⟩

theorem ok (a : α) (h : ∀ s, P s → Q a s) : Answers P (Sql.ok a) Q :=
  fun s hs => ⟨a, s, rfl, h s hs⟩

theorem bind {f : α → Sql σ β} (hm : Answers P m Q) (hf : ∀ a, Answers (Q a) (f a) R) :
    Answers P (m.andThen f) R := by
  intro s hs
  rcases hm s hs with ⟨a, s', hrun, hq⟩
  rcases hf a s' hq with ⟨b, s'', hrun', hr⟩
  exact ⟨b, s'', by rw [andThen, hrun]; exact hrun', hr⟩

/-- What answers is not caught. -/
theorem attempt {Q' : Except SqlError α → σ → Prop} (h : Answers P m Q)
    (hok : ∀ a s, Q a s → Q' (.ok a) s) : Answers P (Sql.attempt m) Q' := by
  intro s hs
  rcases h s hs with ⟨a, s', hrun, hq⟩
  exact ⟨.ok a, s', by rw [Sql.attempt, hrun], hok a s' hq⟩

/-- A refused statement is caught. -/
theorem attempt_refused {f : σ → Except SqlError (α × σ)} {e : SqlError}
    (h : ∀ s, P s → f s = .error e) :
    Answers P (Sql.attempt (Sql.statement f)) (fun r s => r = .error e ∧ P s) := by
  intro s hs
  exact ⟨.error e, s, by rw [Sql.attempt, statement_refused (h s hs)], rfl, hs⟩

/-- A fact that does not depend on the store may be taken out of a precondition. -/
theorem of_pre {p : Prop} (h : p → Answers P m Q) : Answers (fun s => p ∧ P s) m Q :=
  fun s hs => h hs.1 s hs.2

/-- A precondition is a choice of stores to start from. -/
theorem of_each (h : ∀ s, P s → Answers (fun t => t = s) m Q) : Answers P m Q :=
  fun s hs => h s hs s rfl

theorem whenever {b : Prop} [Decidable b] {R : Unit → σ → Prop}
    (hpos : b → Answers P m (fun _ s => R () s)) (hneg : ¬ b → ∀ s, P s → R () s) :
    Answers P (Sql.whenever b m) R := by
  by_cases hb : b
  · rw [Sql.whenever, if_pos hb]
    exact bind (hpos hb) (fun _ => ok () (fun _ hs => hs))
  · rw [Sql.whenever, if_neg hb]
    exact ok () (hneg hb)

theorem transaction (h : Answers P m Q) : Answers P (Sql.transaction m) Q := by
  intro s hs
  rcases h s hs with ⟨a, s', hrun, hq⟩
  refine ⟨a, s', ?_, hq⟩
  simp only [Sql.transaction, Sql.query, Sql.statement, andThen, Option.map_none, hrun, Sql.ok]

/-- A loop with an invariant over the elements done so far. -/
theorem foldEach {I : List ι → β → σ → Prop} {f : β → ι → Sql σ β} (l : List ι) (b : β)
    (hstep : ∀ done x rest b, l = done ++ x :: rest →
      Answers (I done b) (f b x) (fun b' s => I (done ++ [x]) b' s)) :
    Answers (I [] b) (Sql.foldEach l b f) (fun b' s => I l b' s) := by
  have hall : ∀ rest done b, l = done ++ rest →
      Answers (I done b) (Sql.foldEach rest b f) (fun b' s => I l b' s) := by
    intro rest
    induction rest with
    | nil =>
        intro done b hl
        rw [List.append_nil] at hl
        exact ok b (fun s hs => hl ▸ hs)
    | cons x rest ih =>
        intro done b hl
        exact bind (hstep done x rest b hl)
          (fun b' => ih (done ++ [x]) b' (by rw [hl, List.append_assoc]; rfl))
  exact hall l [] b rfl

theorem forEach {I : List ι → σ → Prop} {f : ι → Sql σ Unit} (l : List ι)
    (hstep : ∀ done x rest, l = done ++ x :: rest →
      Answers (I done) (f x) (fun _ s => I (done ++ [x]) s)) :
    Answers (I []) (Sql.forEach l f) (fun _ s => I l s) :=
  foldEach (I := fun done _ s => I done s) l () (fun done x rest _ hl => hstep done x rest hl)

end Answers

end Sql

end Lib

end Spelunk
