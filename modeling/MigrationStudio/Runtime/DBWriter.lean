import Mathlib.Data.List.Range
import MigrationStudio.Foundations.LabelledRuns
import MigrationStudio.Foundations.Transactions

/-!
# `runtime/db_writer.py`: the single write lane

Every write of the program goes through one thread.  `submit` puts a task on a FIFO queue and
hands back its future; `_run` takes the tasks off the queue, collects routine ones in `pending`
and commits them together, and commits a critical one alone after what is pending.

The model is the writer between `start` and `stop`, over any type of tasks.  A task is named by
its position in the order of submission, which is also the name of its future.  The three labels
are the three things that can happen: a client submits, `queue.get` returns a task, `queue.get`
times out --- which it does only on an empty queue.  A batch boundary is placed wherever the labels
place a timeout, so a run of labels is a placement of the boundaries.  A `BEGIN` or `COMMIT` that
raises is no step of its own: the one `except` of `_commit_batch` does to the batch what it does
when an operation raises, and since the tasks may be of any type, such a batch is one with a task
whose operation raises.  The bound of the queue, which only delays `submit`, is left out.

* `Ledger`: the database and the resolved futures are those of the batches committed so far.
* `writer_commits_batches`: at every moment the submitted tasks are a list of committed batches
  followed by the tasks still waiting.
* `writer_reports_truth`: the committed database is the sequential application of exactly the
  operations whose futures hold a result, and futures are resolved in submission order.
-/

namespace MigrationStudio
namespace Runtime

open Foundations

/-- What a writer is built with: what a task's operation does on the connection, whether the task
was submitted as critical, and the `batch_limit` argument. -/
structure WriterSpec (τ σ ε ρ : Type*) where
  operation : τ → σ → σ × Except ε ρ
  critical : τ → Bool
  batchLimit : ℕ

/-- The state of the writer.  `database` is what is committed, `queue` the FIFO of submitted tasks
and `pending` the routine tasks already taken off it; `resolved` lists the futures in the order in
which they were resolved. -/
structure DBWriter (τ σ ε ρ : Type*) where
  database : σ
  queue : List (ℕ × τ)
  pending : List (ℕ × τ)
  submitted : List τ
  resolved : List (ℕ × Except ε ρ)

variable {τ σ ε ρ : Type*}

namespace WriterSpec

/-- `self.batch_limit = max(1, batch_limit)`. -/
def limit (S : WriterSpec τ σ ε ρ) : ℕ := max 1 S.batchLimit

theorem limit_pos (S : WriterSpec τ σ ε ρ) : 0 < S.limit :=
  lt_of_lt_of_le Nat.zero_lt_one (le_max_left 1 S.batchLimit)

/-- The shape of what `_commit_batch` is called with: a critical task alone, or at most
`batch_limit` routine tasks. -/
def IsBatch (S : WriterSpec τ σ ε ρ) (b : List τ) : Prop :=
  (∃ t, b = [t] ∧ S.critical t = true) ∨
    (b ≠ [] ∧ b.length ≤ S.limit ∧ ∀ t ∈ b, S.critical t = false)

end WriterSpec

namespace DBWriter

/-- A started writer over a database. -/
def start (db : σ) : DBWriter τ σ ε ρ :=
  { database := db, queue := [], pending := [], submitted := [], resolved := [] }

/-- The tasks that are submitted and not yet resolved, in submission order. -/
def waiting (w : DBWriter τ σ ε ρ) : List (ℕ × τ) := w.pending ++ w.queue

/-- What the future of the `i`-th submitted task holds; `none` while it is pending. -/
def future (w : DBWriter τ σ ε ρ) (i : ℕ) : Option (Except ε ρ) := w.resolved.lookup i

/-- `submit`: the task goes to the end of the queue. -/
def submit (w : DBWriter τ σ ε ρ) (t : τ) : DBWriter τ σ ε ρ :=
  { w with
    queue := w.queue ++ [(w.submitted.length, t)]
    submitted := w.submitted ++ [t] }

/-- `_commit_batch`: the batch as one transaction, then its futures in order.  No client cancels
a future, so none of them is done before. -/
def commitBatch (S : WriterSpec τ σ ε ρ) (w : DBWriter τ σ ε ρ) (batch : List (ℕ × τ)) :
    DBWriter τ σ ε ρ :=
  if batch.isEmpty then w
  else
    let committed := commitTransaction S.operation (batch.map Prod.snd) w.database
    { w with
      database := committed.1
      resolved := w.resolved ++ (batch.map Prod.fst).zip committed.2 }

@[simp] theorem commitBatch_queue (S : WriterSpec τ σ ε ρ) (w : DBWriter τ σ ε ρ)
    (b : List (ℕ × τ)) : (w.commitBatch S b).queue = w.queue := by
  rw [commitBatch]
  split <;> rfl

@[simp] theorem commitBatch_pending (S : WriterSpec τ σ ε ρ) (w : DBWriter τ σ ε ρ)
    (b : List (ℕ × τ)) : (w.commitBatch S b).pending = w.pending := by
  rw [commitBatch]
  split <;> rfl

@[simp] theorem commitBatch_submitted (S : WriterSpec τ σ ε ρ) (w : DBWriter τ σ ε ρ)
    (b : List (ℕ × τ)) : (w.commitBatch S b).submitted = w.submitted := by
  rw [commitBatch]
  split <;> rfl

@[simp] theorem commitBatch_nil (S : WriterSpec τ σ ε ρ) (w : DBWriter τ σ ε ρ) :
    w.commitBatch S [] = w := rfl

/-- `_run` when `queue.get` raises `Empty`. -/
def timeout (S : WriterSpec τ σ ε ρ) (w : DBWriter τ σ ε ρ) : Option (DBWriter τ σ ε ρ) :=
  match w.queue with
  | [] => some { w.commitBatch S w.pending with pending := [] }
  | _ :: _ => none

/-- `_run` when `queue.get` returns a task. -/
def get (S : WriterSpec τ σ ε ρ) (w : DBWriter τ σ ε ρ) : Option (DBWriter τ σ ε ρ) :=
  match w.queue with
  | [] => none
  | item :: rest =>
      if S.critical item.2 then
        some { (w.commitBatch S w.pending).commitBatch S [item] with
          pending := [], queue := rest }
      else if S.limit ≤ (w.pending ++ [item]).length then
        some { w.commitBatch S (w.pending ++ [item]) with pending := [], queue := rest }
      else some { w with pending := w.pending ++ [item], queue := rest }

end DBWriter

/-- Who moves: a client submits a task, or the writer thread's `queue.get` returns or times
out. -/
inductive WriterLabel (τ : Type*) where
  | submit (t : τ)
  | get
  | timeout

/-- One move of the writer. -/
def DBWriter.step (S : WriterSpec τ σ ε ρ) (w : DBWriter τ σ ε ρ) :
    WriterLabel τ → Option (DBWriter τ σ ε ρ)
  | .submit t => some (w.submit t)
  | .get => w.get S
  | .timeout => w.timeout S

/-! ## The ledger of committed batches -/

/-- The database and the resolved futures are those of the batches `bs`, each committed as one
transaction, and the futures are resolved in submission order. -/
structure Ledger (S : WriterSpec τ σ ε ρ) (db₀ : σ) (bs : List (List τ)) (db : σ)
    (resolved : List (ℕ × Except ε ρ)) : Prop where
  shape : ∀ b ∈ bs, S.IsBatch b
  database : db = (commitBatches S.operation bs db₀).1
  resolved : resolved = (List.range bs.flatten.length).zip (commitBatches S.operation bs db₀).2

theorem length_commitBatches (op : τ → σ → σ × Except ε ρ) (bs : List (List τ)) (s : σ) :
    (commitBatches op bs s).2.length = bs.flatten.length := by
  induction bs generalizing s with
  | nil => rfl
  | cons b bs ih => simp [commitBatches, ih]

/-- One more batch, of the next task numbers, extends the ledger. -/
theorem Ledger.commitBatch {S : WriterSpec τ σ ε ρ} {db₀ : σ} {bs : List (List τ)}
    {w : DBWriter τ σ ε ρ} (h : Ledger S db₀ bs w.database w.resolved) {batch : List (ℕ × τ)}
    (hne : batch ≠ []) (hshape : S.IsBatch (batch.map Prod.snd))
    (hids : batch.map Prod.fst = List.range' bs.flatten.length batch.length) :
    Ledger S db₀ (bs ++ [batch.map Prod.snd]) (w.commitBatch S batch).database
      (w.commitBatch S batch).resolved := by
  have hempty : batch.isEmpty = false := by
    rw [List.isEmpty_eq_false_iff]
    exact hne
  refine ⟨?_, ?_, ?_⟩
  · intro b hb
    rcases List.mem_append.mp hb with hb | hb
    · exact h.shape b hb
    · rw [List.mem_singleton.mp hb]
      exact hshape
  · simp only [DBWriter.commitBatch, hempty, Bool.false_eq_true, if_false, h.database,
      commitBatches_append, commitBatches]
  · have hlen : (bs ++ [batch.map Prod.snd]).flatten.length =
        bs.flatten.length + batch.length := by
      simp
    have hrange : List.range (bs.flatten.length + batch.length) =
        List.range bs.flatten.length ++ List.range' bs.flatten.length batch.length := by
      rw [List.range_eq_range', List.range_eq_range', ← List.range'_append_1, Nat.zero_add]
    simp only [DBWriter.commitBatch, hempty, Bool.false_eq_true, if_false, commitBatches_append,
      commitBatches, List.append_nil]
    rw [h.resolved, ← h.database, hids, hlen, hrange, List.zip_append]
    rw [List.length_range, length_commitBatches]

/-- Where the writer stands: the batches committed so far, then the tasks still waiting, numbered
in submission order; what is pending is routine and shorter than a batch. -/
structure Committed (S : WriterSpec τ σ ε ρ) (db₀ : σ) (w : DBWriter τ σ ε ρ)
    (bs : List (List τ)) : Prop where
  ledger : Ledger S db₀ bs w.database w.resolved
  submitted : w.submitted = bs.flatten ++ w.waiting.map Prod.snd
  ids : w.waiting.map Prod.fst = List.range' bs.flatten.length w.waiting.length
  routine : ∀ p ∈ w.pending, S.critical p.2 = false
  bounded : w.pending.length < S.limit

variable {S : WriterSpec τ σ ε ρ} {db₀ : σ}

theorem committed_start : Committed S db₀ (DBWriter.start db₀ : DBWriter τ σ ε ρ) [] where
  ledger := ⟨by simp, rfl, rfl⟩
  submitted := rfl
  ids := rfl
  routine := by simp [DBWriter.start]
  bounded := S.limit_pos

/-- Numbered tasks split at any point of the list. -/
theorem ids_append {l m : List (ℕ × τ)} {n : ℕ}
    (h : (l ++ m).map Prod.fst = List.range' n (l ++ m).length) :
    l.map Prod.fst = List.range' n l.length ∧
      m.map Prod.fst = List.range' (n + l.length) m.length := by
  rw [List.map_append, List.length_append, ← List.range'_append_1] at h
  exact List.append_inj h (by simp)

theorem isBatch_of_routine {batch : List (ℕ × τ)} (hne : batch ≠ [])
    (hlen : batch.length ≤ S.limit) (h : ∀ p ∈ batch, S.critical p.2 = false) :
    S.IsBatch (batch.map Prod.snd) := by
  refine Or.inr ⟨by simpa using hne, by simpa using hlen, fun t ht => ?_⟩
  obtain ⟨p, hp, rfl⟩ := List.mem_map.mp ht
  exact h p hp

/-- Committing what is pending, empty or not, moves it from the waiting tasks to the ledger. -/
theorem Committed.flush {w : DBWriter τ σ ε ρ} {bs : List (List τ)}
    (h : Committed S db₀ w bs) :
    ∃ cs, Ledger S db₀ cs (w.commitBatch S w.pending).database
        (w.commitBatch S w.pending).resolved ∧
      cs.flatten = bs.flatten ++ w.pending.map Prod.snd := by
  by_cases hne : w.pending = []
  · refine ⟨bs, ?_, by simp [hne]⟩
    simpa [DBWriter.commitBatch, hne] using h.ledger
  · have hids := (ids_append h.ids).1
    refine ⟨bs ++ [w.pending.map Prod.snd],
      h.ledger.commitBatch hne (isBatch_of_routine hne h.bounded.le h.routine) hids, by simp⟩

theorem Committed.submit {w : DBWriter τ σ ε ρ} {bs : List (List τ)}
    (h : Committed S db₀ w bs) (t : τ) : Committed S db₀ (w.submit t) bs where
  ledger := h.ledger
  submitted := by
    simp only [DBWriter.submit, DBWriter.waiting, h.submitted, List.append_assoc, List.map_append,
      List.map_cons, List.map_nil]
  ids := by
    have hw : (w.submit t).waiting = w.waiting ++ [(w.submitted.length, t)] := by
      simp [DBWriter.submit, DBWriter.waiting]
    have hlen : w.submitted.length = bs.flatten.length + w.waiting.length := by
      rw [h.submitted]
      simp
    rw [hw, List.map_append, h.ids, List.length_append, List.length_singleton,
      ← List.range'_append_1, hlen]
    rfl
  routine := h.routine
  bounded := h.bounded

theorem Committed.timeout {w w' : DBWriter τ σ ε ρ} {bs : List (List τ)}
    (h : Committed S db₀ w bs) (hw : w.timeout S = some w') : ∃ cs, Committed S db₀ w' cs := by
  obtain ⟨cs, hcs, hflat⟩ := h.flush
  cases hq : w.queue with
  | cons item rest => simp [DBWriter.timeout, hq] at hw
  | nil =>
      simp only [DBWriter.timeout, hq, Option.some.injEq] at hw
      subst hw
      refine ⟨cs, ⟨hcs, ?_, ?_, by simp, S.limit_pos⟩⟩
      · simp [DBWriter.waiting, hq, h.submitted, hflat]
      · simp [DBWriter.waiting, hq]

/-- The tasks behind the pending ones keep their numbers when the pending ones are committed. -/
theorem Committed.ids_queue {w : DBWriter τ σ ε ρ} {bs cs : List (List τ)}
    (h : Committed S db₀ w bs) (hflat : cs.flatten = bs.flatten ++ w.pending.map Prod.snd) :
    w.queue.map Prod.fst = List.range' cs.flatten.length w.queue.length := by
  have hids := (ids_append h.ids).2
  rw [hids, hflat, List.length_append, List.length_map]

theorem Committed.get {w w' : DBWriter τ σ ε ρ} {bs : List (List τ)}
    (h : Committed S db₀ w bs) (hw : w.get S = some w') : ∃ cs, Committed S db₀ w' cs := by
  cases hq : w.queue with
  | nil => simp [DBWriter.get, hq] at hw
  | cons item rest =>
      simp only [DBWriter.get, hq] at hw
      split at hw
      · -- a critical task: what is pending first, then the task alone
        rename_i hcrit
        obtain ⟨cs, hcs, hflat⟩ := h.flush
        have hids := h.ids_queue hflat
        rw [hq, List.map_cons, List.length_cons, List.range'_succ, List.cons.injEq] at hids
        have halone := hcs.commitBatch (List.cons_ne_nil item [])
          (Or.inl ⟨item.2, rfl, hcrit⟩) (by simp [hids.1])
        rw [Option.some.injEq] at hw
        subst hw
        refine ⟨cs ++ [[item.2]], ⟨halone, ?_, ?_, by simp, S.limit_pos⟩⟩
        · simp [DBWriter.waiting, hq, h.submitted, hflat]
        · simpa [DBWriter.waiting] using hids.2
      · rename_i hcrit
        have hrout : ∀ p ∈ w.pending ++ [item], S.critical p.2 = false := by
          intro p hp
          rcases List.mem_append.mp hp with hp | hp
          · exact h.routine p hp
          · rw [List.mem_singleton.mp hp]
            simpa using hcrit
        have hwait : w.waiting = (w.pending ++ [item]) ++ rest := by
          simp [DBWriter.waiting, hq]
        have hsplit := ids_append (l := w.pending ++ [item]) (m := rest) (hwait ▸ h.ids)
        split at hw
        · -- the batch is full
          have hne : w.pending ++ [item] ≠ [] := by simp
          have hfull := h.ledger.commitBatch hne
            (isBatch_of_routine hne (by simpa using Nat.succ_le_of_lt h.bounded) hrout)
            hsplit.1
          rw [Option.some.injEq] at hw
          subst hw
          refine ⟨_, ⟨hfull, ?_, ?_, by simp, S.limit_pos⟩⟩
          · simp [DBWriter.waiting, hq, h.submitted]
          · simpa [DBWriter.waiting] using hsplit.2
        · -- the task joins the pending ones
          rename_i hroom
          rw [Option.some.injEq] at hw
          subst hw
          refine ⟨bs, ⟨h.ledger, ?_, ?_, hrout, by simpa using hroom⟩⟩
          · rw [h.submitted, hwait]
            rfl
          · have hids := h.ids
            rw [hwait] at hids
            exact hids

theorem Committed.step {w w' : DBWriter τ σ ε ρ} (l : WriterLabel τ)
    (h : ∃ bs, Committed S db₀ w bs) (hw : w.step S l = some w') :
    ∃ cs, Committed S db₀ w' cs := by
  obtain ⟨bs, hbs⟩ := h
  cases l with
  | submit t =>
      rw [DBWriter.step, Option.some.injEq] at hw
      exact ⟨bs, hw ▸ hbs.submit t⟩
  | get => exact hbs.get hw
  | timeout => exact hbs.timeout hw

/-- **The writer commits batches.**  Wherever the boundaries fall, the tasks submitted so far are
a list of batches, each committed as one transaction, followed by the tasks still waiting. -/
theorem writer_commits_batches {ls : List (WriterLabel τ)} {w : DBWriter τ σ ε ρ}
    (h : runLabels (DBWriter.step S) (DBWriter.start db₀) ls = some w) :
    ∃ bs, Committed S db₀ w bs :=
  invariant_runLabels (C := fun _ _ => True) (fun _ l _ hI _ hs => Committed.step l hI hs)
    ⟨[], committed_start⟩ (along_of_forall_mem fun _ _ => trivial) h

/-! ## What the futures report -/

namespace DBWriter

/-- The operations whose futures hold a result, in submission order, each with that result. -/
def succeeded (w : DBWriter τ σ ε ρ) : List (τ × ρ) :=
  w.submitted.zipIdx.filterMap fun p =>
    match w.future p.2 with
    | some (.ok r) => some (p.1, r)
    | _ => none

end DBWriter

/-- The pairs whose outcome is a result. -/
def okPairs (l : List (τ × Except ε ρ)) : List (τ × ρ) :=
  l.filterMap fun p =>
    match p.2 with
    | .ok r => some (p.1, r)
    | .error _ => none

theorem okPairs_append (l m : List (τ × Except ε ρ)) :
    okPairs (l ++ m) = okPairs l ++ okPairs m := by
  simp [okPairs]

theorem okPairs_zip_ok (ts : List τ) (rs : List ρ) :
    okPairs (ts.zip (rs.map (.ok : ρ → Except ε ρ))) = ts.zip rs := by
  rw [okPairs, List.zip_map_right, List.filterMap_map]
  exact List.filterMap_some

theorem okPairs_zip_error (ts : List τ) (us : List τ) (e : ε) :
    okPairs (ts.zip (us.map fun _ => (.error e : Except ε ρ))) = [] := by
  rw [okPairs, List.zip_map_right, List.filterMap_map]
  exact List.filterMap_eq_nil_iff.mpr fun _ _ => rfl

/-- What the batches leave in the database is what their successful operations, and no others,
leave in one run. -/
theorem transaction_okPairs (op : τ → σ → σ × Except ε ρ) (bs : List (List τ)) (s : σ) :
    transaction op ((okPairs (bs.flatten.zip (commitBatches op bs s).2)).map Prod.fst) s =
      ((commitBatches op bs s).1,
        .ok ((okPairs (bs.flatten.zip (commitBatches op bs s).2)).map Prod.snd)) := by
  induction bs generalizing s with
  | nil => rfl
  | cons b bs ih =>
      have hzip : (b :: bs).flatten.zip (commitBatches op (b :: bs) s).2 =
          b.zip (commitTransaction op b s).2 ++
            bs.flatten.zip (commitBatches op bs (commitTransaction op b s).1).2 := by
        rw [List.flatten_cons, commitBatches, List.zip_append (by simp)]
      rw [hzip, okPairs_append, List.map_append, List.map_append]
      rcases hb : transaction op b s with ⟨u, e | rs⟩
      · -- the batch is rolled back: it leaves the database and contributes no success
        have hc := commitTransaction_of_error hb
        rw [commitBatches, hc, okPairs_zip_error, List.map_nil, List.nil_append, List.map_nil,
          List.nil_append]
        exact ih s
      · have hc := commitTransaction_of_ok hb
        have hlen := length_of_transaction hb
        rw [commitBatches, hc, okPairs_zip_ok, List.map_fst_zip hlen.ge,
          List.map_snd_zip hlen.le]
        exact transaction_append hb (ih u)

theorem lookup_range'_zip (n : ℕ) (os : List (Except ε ρ)) (i : ℕ) :
    ((List.range' n os.length).zip os).lookup (n + i) = os[i]? := by
  induction os generalizing n i with
  | nil => rfl
  | cons o os ih =>
      rw [List.length_cons, List.range'_succ, List.zip_cons_cons, List.lookup_cons]
      cases i with
      | zero => simp
      | succ i =>
          have hne : (n + (i + 1) == n) = false := by simp
          rw [hne, List.getElem?_cons_succ, ← ih (n + 1) i]
          simp only [Nat.add_assoc, Nat.add_comm 1 i]

/-- The futures of the committed tasks hold their outcomes; the others are pending. -/
theorem Committed.future_eq {w : DBWriter τ σ ε ρ} {bs : List (List τ)}
    (h : Committed S db₀ w bs) (i : ℕ) :
    w.future i = (commitBatches S.operation bs db₀).2[i]? := by
  have hlen := length_commitBatches S.operation bs db₀
  have hl := lookup_range'_zip 0 (commitBatches S.operation bs db₀).2 i
  rw [Nat.zero_add] at hl
  rw [DBWriter.future, h.ledger.resolved, List.range_eq_range', ← hlen, hl]

theorem filterMap_zipIdx_eq (ts us : List τ) (os : List (Except ε ρ)) (n : ℕ)
    (hlen : os.length = ts.length) (f : ℕ → Option (Except ε ρ))
    (hf : ∀ i, f (n + i) = os[i]?) :
    ((ts ++ us).zipIdx n).filterMap (fun p =>
        match f p.2 with
        | some (.ok r) => some (p.1, r)
        | _ => none) = okPairs (ts.zip os) := by
  induction ts generalizing os n with
  | nil =>
      have hos : os = [] := List.length_eq_zero_iff.mp hlen
      rw [List.nil_append, List.zip_nil_left, okPairs, List.filterMap_nil,
        List.filterMap_eq_nil_iff]
      intro p hp
      obtain ⟨hle, -, -⟩ := List.mem_zipIdx hp
      have hnone := hf (p.2 - n)
      rw [Nat.add_sub_cancel' hle, hos] at hnone
      simp [hnone]
  | cons t ts ih =>
      cases os with
      | nil => simp at hlen
      | cons o os =>
          have hhead := hf 0
          have htail := ih os (n + 1) (by simpa using hlen) fun i => by
            rw [show n + 1 + i = n + (i + 1) by omega, hf, List.getElem?_cons_succ]
          rw [Nat.add_zero, List.getElem?_cons_zero] at hhead
          rw [List.cons_append, List.zipIdx_cons, List.filterMap_cons, htail]
          cases o with
          | error e => simp [hhead, okPairs]
          | ok r => simp [hhead, okPairs]

theorem Committed.succeeded_eq {w : DBWriter τ σ ε ρ} {bs : List (List τ)}
    (h : Committed S db₀ w bs) :
    w.succeeded = okPairs (bs.flatten.zip (commitBatches S.operation bs db₀).2) := by
  rw [DBWriter.succeeded, h.submitted]
  refine filterMap_zipIdx_eq _ _ _ 0 (length_commitBatches _ _ _) _ fun i => ?_
  rw [Nat.zero_add]
  exact h.future_eq i

/-- The committed database is what the operations whose futures hold a result leave in one run. -/
theorem Committed.transaction_succeeded {w : DBWriter τ σ ε ρ} {bs : List (List τ)}
    (h : Committed S db₀ w bs) :
    transaction S.operation (w.succeeded.map Prod.fst) db₀ =
      (w.database, .ok (w.succeeded.map Prod.snd)) := by
  rw [h.succeeded_eq, h.ledger.database]
  exact transaction_okPairs S.operation bs db₀

/-- **The writer reports the truth and keeps order.**  Between two batches the committed database
is the sequential application, in submission order, of exactly the operations whose futures hold a
result, with those results; and whenever a future is resolved, a critical task's as any other,
the futures of all tasks submitted before it are already resolved. -/
theorem writer_reports_truth (S : WriterSpec τ σ ε ρ) (db₀ : σ) (ls : List (WriterLabel τ))
    (w : DBWriter τ σ ε ρ)
    (h : runLabels (DBWriter.step S) (DBWriter.start db₀) ls = some w) :
    transaction S.operation (w.succeeded.map Prod.fst) db₀ =
        (w.database, .ok (w.succeeded.map Prod.snd)) ∧
      ∀ before j o after, w.resolved = before ++ (j, o) :: after →
        ∀ i < j, ∃ o', (i, o') ∈ before := by
  obtain ⟨bs, hbs⟩ := writer_commits_batches h
  refine ⟨hbs.transaction_succeeded, ?_⟩
  · intro before j o after hsplit i hi
    have hfst : w.resolved.map Prod.fst = List.range bs.flatten.length := by
      rw [hbs.ledger.resolved]
      exact List.map_fst_zip (by rw [List.length_range, length_commitBatches])
    -- the future of task `j` is the `j`-th to be resolved, so task `i` comes before it
    rw [hsplit, List.map_append, List.map_cons, eq_comm, List.range_eq_range'] at hfst
    obtain ⟨k, -, hbefore, hafter⟩ := List.range'_eq_append_iff.mp hfst
    obtain ⟨hj, -⟩ := List.range'_eq_cons_iff.mp hafter.symm
    have hmem : i ∈ before.map Prod.fst := by
      rw [hbefore, List.mem_range'_1]
      omega
    obtain ⟨p, hp, rfl⟩ := List.mem_map.mp hmem
    exact ⟨p.2, hp⟩

/-! ## A writer over rows -/

/-- A task over a database that is a list of rows: a routine or critical insert, or an operation
that inserts and then raises. -/
inductive RowTask where
  | insert (row : ℕ) (critical : Bool)
  | insertAndRaise (row : ℕ) (critical : Bool)
  deriving DecidableEq

/-- A writer over rows with the default batch limit. -/
def rowWriter : WriterSpec RowTask (List ℕ) Unit ℕ where
  operation
    | .insert row _, rows => (rows ++ [row], .ok rows.length)
    | .insertAndRaise row _, rows => (rows ++ [row], .error ())
  critical
    | .insert _ critical => critical
    | .insertAndRaise _ critical => critical
  batchLimit := 250

/-- Three tasks, the critical one of which raises, up to the moment before the last boundary: the
rows are those of the first task. -/
theorem writer_reports_truth_rows :
    ∃ w : DBWriter RowTask (List ℕ) Unit ℕ,
      runLabels (DBWriter.step rowWriter) (DBWriter.start [])
          [.submit (.insert 1 false), .submit (.insertAndRaise 2 true),
            .submit (.insert 3 false), .get, .get, .get] = some w ∧
      w.succeeded = [(.insert 1 false, 0)] ∧
      transaction rowWriter.operation (w.succeeded.map Prod.fst) [] =
        (w.database, .ok (w.succeeded.map Prod.snd)) :=
  ⟨_, rfl, rfl, (writer_reports_truth rowWriter []
    [.submit (.insert 1 false), .submit (.insertAndRaise 2 true),
      .submit (.insert 3 false), .get, .get, .get] _ rfl).1⟩

end Runtime
end MigrationStudio
