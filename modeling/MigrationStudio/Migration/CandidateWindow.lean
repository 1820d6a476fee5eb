import MigrationStudio.Foundations.KeysetPages
import MigrationStudio.Foundations.LabelledRuns
import MigrationStudio.Migration.Mirroring

/-!
# The candidate window as a scan

`CandidateBuffer` with any `chunk_size`, between a consumer that calls `prime` and `pop`, a worker
that reads pages, and writers.

* `Prefetching`: the database, the buffer, the consumer and what it has popped; `PrefetchLabel` and
  `step`: the moves of the three.  The writers may update the items that have been popped.
* `candidates`, of the plain ordered scan: the READY and RETRY items of the job.
* `Windowed`: what has been popped and what is in the queue is the scan up to `last_loaded`.
* `pops_the_scan`: until its first `None`, `pop` returns the scan of the start.
-/

namespace MigrationStudio
namespace Migration

open Foundations MigrationStudio.Core Jobs Telegram Storage

namespace CandidateBuffer

variable {b b' : CandidateBuffer} {db : Database} {id : JobId} {account : AccountId} {n : ℕ}

/-! ## Chunks of any size -/

/-- `chunk_size` of `__init__`. -/
def clampedChunk (chunk_size : ℤ) : ℕ :=
  (max (CANDIDATE_PREFETCH_MIN : ℤ) (min (CANDIDATE_PREFETCH_MAX : ℤ) chunk_size)).toNat

/-- `low_watermark` of `__init__`. -/
def watermark (n : ℕ) : ℕ := max 50 (n / 4)

/-- The worker runs `pending_chunk` for `n` rows. -/
def readChunk (n : ℕ) (b : CandidateBuffer) (db : Database) (id : JobId) (account : AccountId) :
    Option CandidateBuffer :=
  match b.loading with
  | some .requested =>
      some { b with loading := some (.ready (db.pendingChunk id account b.lastLoaded n)) }
  | _ => none

/-- The candidate that `pop` returns from a queue that is not empty. -/
def takeFrom (n : ℕ) (b : CandidateBuffer) : Option (BufferedCandidate × CandidateBuffer) :=
  match b.queue with
  | [] => none
  | item :: queue =>
      let b' := { b with queue := queue }
      some (item, if queue.length ≤ watermark n then b'.submitFill else b')

theorem clampedChunk_pos (chunk_size : ℤ) : 0 < clampedChunk chunk_size := by
  unfold clampedChunk CANDIDATE_PREFETCH_MIN CANDIDATE_PREFETCH_MAX
  omega

theorem clampedChunk_le (chunk_size : ℤ) : clampedChunk chunk_size ≤ CANDIDATE_PREFETCH_MAX := by
  unfold clampedChunk CANDIDATE_PREFETCH_MIN CANDIDATE_PREFETCH_MAX
  omega

/-- The executor leaves the default. -/
theorem clampedChunk_default : clampedChunk CANDIDATE_PREFETCH_MIN = chunkSize := by decide

theorem readChunk_default : b.readChunk chunkSize db id account = b.read db id account := rfl

theorem takeFrom_default : b.takeFrom chunkSize = b.take := rfl

/-! ## The consumer, the worker and the writers -/

/-- Where the consumer is: between two calls, in `prime` or `pop` where they wait for a read, or
behind the first `None`. -/
inductive Consumer where
  | idle
  | priming
  | popping
  | finished
  deriving DecidableEq, Repr

/-- The buffer in its surroundings. -/
structure Prefetching where
  db : Database
  buffer : CandidateBuffer
  consumer : Consumer
  popped : List BufferedCandidate

/-- The moves. -/
inductive PrefetchLabel where
  | prime
  | pop
  | read
  | receive
  | write (w : LaneWrite)

/-- A write that updates of the items of the job only those that have been popped, and of what they
are joined with nothing. -/
def WritesPopped (id : JobId) (popped : List BufferedCandidate) : LaneWrite → Prop
  | .job j (.updateItems updates _) =>
      j = id → ∀ u ∈ updates, u.ordinal ∈ popped.map BufferedCandidate.ordinal
  | .job j (.markRetry ordinal _ _ _ _) =>
      j = id → ordinal ∈ popped.map BufferedCandidate.ordinal
  | .peers _ => False
  | _ => True

instance (id : JobId) (popped : List BufferedCandidate) (w : LaneWrite) :
    Decidable (WritesPopped id popped w) := by
  unfold WritesPopped
  split <;> infer_instance

/-- `pop` with a queue that may be empty, after `_finish_fill`. -/
def popNow (n : ℕ) (s : Prefetching) (b : CandidateBuffer) : Prefetching :=
  match b.takeFrom n with
  | some (item, b') =>
      { s with buffer := b', consumer := .idle, popped := s.popped ++ [item] }
  | none => { s with buffer := b, consumer := .finished }

/-- The steps; `chunk_size` is the argument of `__init__`. -/
def step (chunk_size : ℤ) (id : JobId) (account : AccountId) (s : Prefetching) :
    PrefetchLabel → Option Prefetching
  | .prime =>
      if s.consumer = .idle then
        if s.buffer.queue = [] ∧ s.buffer.exhausted = false then
          some { s with buffer := s.buffer.submitFill, consumer := .priming }
        else some s
      else none
  | .pop =>
      if s.consumer = .idle then
        if s.buffer.queue = [] ∧ s.buffer.submitFill.loading.isSome then
          some { s with buffer := s.buffer.submitFill, consumer := .popping }
        else some (popNow (clampedChunk chunk_size) s s.buffer)
      else none
  | .read =>
      (s.buffer.readChunk (clampedChunk chunk_size) s.db id account).map fun b =>
        { s with buffer := b }
  | .receive =>
      match s.buffer.loading, s.consumer with
      | some (.ready rows), .priming =>
          some { s with buffer := s.buffer.receive rows, consumer := .idle }
      | some (.ready rows), .popping =>
          some (popNow (clampedChunk chunk_size) s (s.buffer.receive rows))
      | _, _ => none
  | .write w =>
      if WritesPopped id s.popped w then some { s with db := s.db.apply w } else none

/-- A new buffer. -/
def begin (db : Database) : Prefetching where
  db := db
  buffer := {}
  consumer := .idle
  popped := []

/-! ## The scan -/

/-- The column that the pages go by. -/
def ordinalKey (c : BufferedCandidate) : ℤ := c.ordinal

theorem pairwise_candidates :
    (candidates db id account).Pairwise fun c c' => ordinalKey c < ordinalKey c' := by
  unfold candidates
  cases db.jobs[id]? with
  | none => exact List.Pairwise.nil
  | some job =>
      refine List.pairwise_map.mpr (job.items.pairwise_pendingRows.imp fun {r r'} h => ?_)
      show (r.ordinal : ℤ) < r'.ordinal
      exact Int.ofNat_lt.mpr h

/-- `pending_chunk` is a page of the scan. -/
theorem ofRow_pendingChunk (last : ℤ) (n : ℕ) :
    (db.pendingChunk id account last n).map ofRow =
      keysetPage ordinalKey (candidates db id account) last n := by
  unfold Database.pendingChunk candidates keysetPage keysAbove
  cases db.jobs[id]? with
  | none => simp
  | some job =>
      rw [List.map_map, List.filter_map, List.map_take]
      rfl

/-- What is above a place is the same after writes to items that are not. -/
theorem filter_rows_modifyAt (t : ItemTable) {o : ℕ} (f : Item → Item)
    (hf : ∀ r, (f r).ordinal = r.ordinal) {last : ℤ} (ho : (o : ℤ) ≤ last) :
    ((t.modifyAt o f hf).rows.filter fun r => last < (r.ordinal : ℤ)) =
      t.rows.filter fun r => last < (r.ordinal : ℤ) := by
  show (t.rows.map fun r => if r.ordinal = o then f r else r).filter _ = _
  induction t.rows with
  | nil => rfl
  | cons r rows ih =>
      rw [List.map_cons]
      by_cases hr : r.ordinal = o
      · have hbelow : ¬ last < (r.ordinal : ℤ) := by
          rw [hr]
          omega
        rw [if_pos hr, List.filter_cons_of_neg (by simpa [hf] using hbelow),
          List.filter_cons_of_neg (by simpa using hbelow), ih]
      · rw [if_neg hr, List.filter_cons, List.filter_cons, ih]

theorem filter_rows_updateItems {t : ItemTable} {us : List ItemUpdate} {last : ℤ}
    (hus : ∀ u ∈ us, (u.ordinal : ℤ) ≤ last) :
    ((t.updateItems us).rows.filter fun r => last < (r.ordinal : ℤ)) =
      t.rows.filter fun r => last < (r.ordinal : ℤ) := by
  induction us generalizing t with
  | nil => rfl
  | cons u us ih =>
      have hone : ((t.updateItem u).rows.filter fun r => last < (r.ordinal : ℤ)) =
          t.rows.filter fun r => last < (r.ordinal : ℤ) := by
        unfold ItemTable.updateItem
        exact filter_rows_modifyAt t _ _ (hus u (List.mem_cons_self ..))
      exact (ih fun v hv => hus v (List.mem_cons_of_mem _ hv)).trans hone

/-- The scan above a place reads the items above it. -/
theorem keysAbove_candidates (last : ℤ) :
    keysAbove ordinalKey (candidates db id account) last =
      match db.jobs[id]? with
      | none => []
      | some job =>
          ((job.items.rows.filter fun r => last < (r.ordinal : ℤ)).filter
            fun r => r.state.pending).map (candidateOf db account) := by
  unfold keysAbove candidates
  cases db.jobs[id]? with
  | none => rfl
  | some job =>
      show _ = List.map _ (List.filter _ (List.filter _ _))
      rw [List.filter_map, ItemTable.pendingRows, List.filter_filter, List.filter_filter]
      refine congrArg _ (List.filter_congr fun r _ => ?_)
      show (decide (last < (r.ordinal : ℤ)) && r.state.pending) = _
      rw [Bool.and_comm]

/-- **A write of popped items** leaves the scan above them as it is. -/
theorem keysAbove_candidates_apply {popped : List BufferedCandidate} {w : LaneWrite} {last : ℤ}
    (hw : WritesPopped id popped w) (hpopped : ∀ c ∈ popped, ordinalKey c ≤ last) :
    keysAbove ordinalKey (candidates (db.apply w) id account) last =
      keysAbove ordinalKey (candidates db id account) last := by
  have hbelow : ∀ {o : ℕ}, o ∈ popped.map BufferedCandidate.ordinal → (o : ℤ) ≤ last := by
    intro o ho
    obtain ⟨c, hc, rfl⟩ := List.mem_map.mp ho
    exact hpopped c hc
  have hpeers : (db.apply w).peers = db.peers := by
    cases w with
    | peers w => exact hw.elim
    | job j jw =>
        show (db.applyJob j jw).peers = db.peers
        unfold Database.applyJob
        split <;> rfl
    | _ => rfl
  have hof : candidateOf (db.apply w) account = candidateOf db account := by
    unfold candidateOf
    rw [hpeers]
  rw [keysAbove_candidates, keysAbove_candidates, Database.jobs_apply, hof]
  cases hjw : w.ofJob id with
  | none => rfl
  | some jw =>
      have hown : w = .job id jw := by
        cases w with
        | job j w' =>
            rw [LaneWrite.ofJob] at hjw
            split at hjw
            · rename_i hj
              rw [hj, Option.some.inj hjw]
            · exact absurd hjw (by simp)
        | _ => exact absurd hjw (by simp [LaneWrite.ofJob])
      subst hown
      cases db.jobs[id]? with
      | none => rfl
      | some job =>
          have hrows : ((job.apply jw).items.rows.filter fun r => last < (r.ordinal : ℤ)) =
              job.items.rows.filter fun r => last < (r.ordinal : ℤ) := by
            cases jw with
            | updateItems us c => exact filter_rows_updateItems fun u hu => hbelow (hw rfl u hu)
            | markRetry o k code text at' =>
                show (job.items.markRetry o k code text at').rows.filter _ = _
                unfold ItemTable.markRetry
                exact filter_rows_modifyAt _ _ _ (hbelow (hw rfl))
            | setState state until' c clear => rfl
            | event level code message m => rfl
          show List.map _ (List.filter _ ((job.apply jw).items.rows.filter _)) = _
          rw [hrows]

/-! ## The invariant -/

variable {all popped : List BufferedCandidate} {item : BufferedCandidate}

/-- The buffer over the scan `all`: what has been popped and the queue are the scan up to
`last_loaded`, a read that has returned is the next page, and nothing is left when it is
exhausted. -/
structure Window (n : ℕ) (all popped : List BufferedCandidate) (b : CandidateBuffer) : Prop where
  taken : popped ++ b.queue = keysUpTo ordinalKey all b.lastLoaded
  ready : ∀ rows, b.loading = some (.ready rows) →
    rows.map ofRow = keysetPage ordinalKey all b.lastLoaded n
  exhausted : b.exhausted = true → keysUpTo ordinalKey all b.lastLoaded = all
  bound : b.queue.length ≤ n

theorem Window.submitFill (h : Window n all popped b) : Window n all popped b.submitFill where
  taken := by
    rw [queue_submitFill, lastLoaded_submitFill]
    exact h.taken
  ready := by
    intro rows hrows
    rw [lastLoaded_submitFill]
    rcases loading_submitFill b with hsame | ⟨-, hrequested⟩
    · exact h.ready rows (hsame ▸ hrows)
    · exact absurd (hrequested.symm.trans hrows) (by simp)
  exhausted := by
    rw [exhausted_submitFill, lastLoaded_submitFill]
    exact h.exhausted
  bound := by
    rw [queue_submitFill]
    exact h.bound

theorem takeFrom_eq_some (h : b.takeFrom n = some (item, b')) :
    ∃ queue, b.queue = item :: queue ∧
      (b' = { b with queue := queue } ∨
        b' = CandidateBuffer.submitFill { b with queue := queue }) := by
  unfold takeFrom at h
  split at h
  · exact absurd h (by simp)
  · rename_i item' queue hq
    simp only [Option.some.injEq, Prod.mk.injEq] at h
    obtain ⟨rfl, rfl⟩ := h
    refine ⟨queue, hq, ?_⟩
    split
    · exact Or.inr rfl
    · exact Or.inl rfl

theorem takeFrom_eq_none (h : b.takeFrom n = none) : b.queue = [] := by
  unfold takeFrom at h
  split at h
  · assumption
  · exact absurd h (by simp)

/-- **A pop** moves the front of the queue. -/
theorem Window.takeFrom (h : Window n all popped b) (htake : b.takeFrom n = some (item, b')) :
    Window n all (popped ++ [item]) b' ∧ b'.lastLoaded = b.lastLoaded := by
  obtain ⟨queue, hq, hb'⟩ := takeFrom_eq_some htake
  have hpop : Window n all (popped ++ [item]) { b with queue := queue } := by
    refine ⟨?_, h.ready, h.exhausted, ?_⟩
    · show (popped ++ [item]) ++ queue = keysUpTo ordinalKey all b.lastLoaded
      rw [← h.taken, hq, List.append_assoc, List.singleton_append]
    · have hbound := h.bound
      rw [hq, List.length_cons] at hbound
      show queue.length ≤ n
      omega
  rcases hb' with rfl | rfl
  · exact ⟨hpop, rfl⟩
  · exact ⟨hpop.submitFill, lastLoaded_submitFill _⟩

/-- **A page arrives** at an empty queue. -/
theorem Window.receive (h : Window n all popped b) (hn : 0 < n)
    (hs : all.Pairwise fun c c' => ordinalKey c < ordinalKey c')
    {rows : List Database.CandidateRow} (hq : b.queue = [])
    (hloading : b.loading = some (.ready rows)) :
    Window n all popped (b.receive rows) ∧ b.lastLoaded ≤ (b.receive rows).lastLoaded ∧
      ((b.receive rows).queue = [] → (b.receive rows).exhausted = true) := by
  have hpage := h.ready rows hloading
  have htaken := h.taken
  rw [hq, List.append_nil] at htaken
  unfold CandidateBuffer.receive
  cases hlast : rows.getLast? with
  | none =>
      rw [List.getLast?_eq_none_iff] at hlast
      rw [hlast, List.map_nil] at hpage
      refine ⟨⟨?_, by simp, fun _ => keysUpTo_of_page_nil hs hn hpage.symm, ?_⟩, le_rfl,
        fun _ => rfl⟩
      · show popped ++ b.queue = _
        rw [hq, List.append_nil, htaken]
      · exact h.bound
  | some last =>
      have hlast' : (keysetPage ordinalKey all b.lastLoaded n).getLast? = some (ofRow last) := by
        rw [← hpage, List.getLast?_map, hlast, Option.map_some]
      have hread : keysUpTo ordinalKey all (last.ordinal : ℤ) =
          keysUpTo ordinalKey all b.lastLoaded ++ rows.map ofRow := by
        rw [hpage]
        exact keysUpTo_last hs hlast'
      refine ⟨⟨?_, by simp, fun hex => ?_, ?_⟩, ?_, fun hnil => ?_⟩
      · show popped ++ (b.queue ++ rows.map ofRow) = keysUpTo ordinalKey all (last.ordinal : ℤ)
        rw [hq, List.nil_append, hread, htaken]
      · -- an exhausted buffer has read everything, and the page would be empty
        have hall := h.exhausted hex
        have hmem : ofRow last ∈ keysetPage ordinalKey all b.lastLoaded n :=
          List.mem_of_getLast? hlast'
        have hin : ofRow last ∈ keysUpTo ordinalKey all b.lastLoaded := by
          rw [hall]
          exact List.mem_of_mem_filter (List.mem_of_mem_take hmem)
        have hle : ordinalKey (ofRow last) ≤ b.lastLoaded := by
          simpa using (List.mem_filter.mp hin).2
        exact absurd (lt_of_mem_keysetPage hmem) (not_lt.mpr hle)
      · show (b.queue ++ rows.map ofRow).length ≤ n
        rw [hq, List.nil_append, hpage]
        exact length_keysetPage_le ..
      · exact (lt_of_mem_keysetPage (List.mem_of_getLast? hlast')).le
      · have hnone : rows = [] := by
          have hnil' : b.queue ++ rows.map ofRow = [] := hnil
          simpa [hq] using hnil'
        rw [hnone] at hlast
        exact absurd hlast (by simp)

/-- The whole, over the scan `all` of the start. -/
structure Windowed (n : ℕ) (id : JobId) (account : AccountId) (all : List BufferedCandidate)
    (s : Prefetching) : Prop where
  window : Window n all s.popped s.buffer
  unread : keysAbove ordinalKey (candidates s.db id account) s.buffer.lastLoaded =
    keysAbove ordinalKey all s.buffer.lastLoaded
  waiting : s.consumer = .priming ∨ s.consumer = .popping →
    s.buffer.queue = [] ∧ s.buffer.loading.isSome
  finished : s.consumer = .finished → s.buffer.queue = [] ∧ s.buffer.exhausted = true

variable {s s' : Prefetching} {chunk_size : ℤ} {ls : List PrefetchLabel} {l : PrefetchLabel}

theorem windowed_begin (n : ℕ) (db : Database) (id : JobId) (account : AccountId) :
    Windowed n id account (candidates db id account) (begin db) := by
  have hnone : keysUpTo ordinalKey (candidates db id account) (-1) = [] := by
    rw [keysUpTo, List.filter_eq_nil_iff]
    intro c _
    have hc : ¬ ordinalKey c ≤ -1 := by
      unfold ordinalKey
      omega
    simpa using hc
  refine ⟨⟨hnone.symm, ?_, ?_, Nat.zero_le n⟩, rfl, ?_, ?_⟩ <;> simp [begin]

/-- What a call of `pop` leaves after `_finish_fill`. -/
theorem Windowed.popNow (hb : Window n all s.popped b)
    (hunread : keysAbove ordinalKey (candidates s.db id account) b.lastLoaded =
      keysAbove ordinalKey all b.lastLoaded)
    (hend : b.queue = [] → b.exhausted = true) :
    Windowed n id account all (CandidateBuffer.popNow n s b) := by
  unfold CandidateBuffer.popNow
  cases htake : b.takeFrom n with
  | none =>
      have hq := takeFrom_eq_none htake
      exact ⟨hb, hunread, by simp, fun _ => ⟨hq, hend hq⟩⟩
  | some p =>
      obtain ⟨item, b'⟩ := p
      obtain ⟨hwindow, hlast⟩ := hb.takeFrom htake
      exact ⟨hwindow, by rw [hlast]; exact hunread, by simp, by simp⟩

/-- The fill that a call waits for, unless everything has been read. -/
theorem loading_isSome_submitFill (hex : b.exhausted = false) : b.submitFill.loading.isSome := by
  unfold submitFill
  split
  · rename_i h
    rw [hex, Bool.or_false] at h
    exact h
  · rfl

/-- **One move** keeps what has been popped a scan. -/
theorem Windowed.step (h : Windowed (clampedChunk chunk_size) id account all s)
    (hs : all.Pairwise fun c c' => ordinalKey c < ordinalKey c')
    (hstep : step chunk_size id account s l = some s') :
    Windowed (clampedChunk chunk_size) id account all s' := by
  have hsubmitted :
      keysAbove ordinalKey (candidates s.db id account) s.buffer.submitFill.lastLoaded =
        keysAbove ordinalKey all s.buffer.submitFill.lastLoaded := by
    rw [lastLoaded_submitFill]
    exact h.unread
  cases l with
  | prime =>
      simp only [CandidateBuffer.step] at hstep
      split_ifs at hstep with hidle hempty
      · obtain rfl := Option.some.inj hstep
        refine ⟨h.window.submitFill, hsubmitted, fun _ => ⟨?_, ?_⟩, by simp⟩
        · rw [queue_submitFill]
          exact hempty.1
        · exact loading_isSome_submitFill hempty.2
      · obtain rfl := Option.some.inj hstep
        exact h
  | pop =>
      simp only [CandidateBuffer.step] at hstep
      split_ifs at hstep with hidle hempty
      · obtain rfl := Option.some.inj hstep
        refine ⟨h.window.submitFill, hsubmitted, fun _ => ⟨?_, hempty.2⟩, by simp⟩
        rw [queue_submitFill]
        exact hempty.1
      · obtain rfl := Option.some.inj hstep
        refine Windowed.popNow h.window h.unread fun hq => ?_
        by_contra hex
        exact hempty ⟨hq, loading_isSome_submitFill (by simpa using hex)⟩
  | read =>
      simp only [CandidateBuffer.step, CandidateBuffer.readChunk] at hstep
      split at hstep
      · obtain rfl := Option.some.inj hstep
        refine ⟨⟨h.window.taken, fun rows hrows => ?_, h.window.exhausted, h.window.bound⟩,
          h.unread, fun hw => ⟨(h.waiting hw).1, rfl⟩, h.finished⟩
        simp only [Option.some.injEq, Loading.ready.injEq] at hrows
        subst hrows
        rw [ofRow_pendingChunk, keysetPage, keysetPage, h.unread]
      · exact absurd hstep (by simp)
  | receive =>
      simp only [CandidateBuffer.step] at hstep
      split at hstep
      · rename_i rows hloading hconsumer
        obtain rfl := Option.some.inj hstep
        obtain ⟨hwindow, hle, -⟩ := h.window.receive (clampedChunk_pos _) hs
          (h.waiting (Or.inl hconsumer)).1 hloading
        exact ⟨hwindow, keysAbove_congr h.unread hle, by simp, by simp⟩
      · rename_i rows hloading hconsumer
        obtain rfl := Option.some.inj hstep
        obtain ⟨hwindow, hle, hend⟩ := h.window.receive (clampedChunk_pos _) hs
          (h.waiting (Or.inr hconsumer)).1 hloading
        exact Windowed.popNow hwindow (keysAbove_congr h.unread hle) hend
      · exact absurd hstep (by simp)
  | write w =>
      simp only [CandidateBuffer.step] at hstep
      split_ifs at hstep with hw
      obtain rfl := Option.some.inj hstep
      refine ⟨h.window, ?_, h.waiting, h.finished⟩
      rw [keysAbove_candidates_apply hw fun c hc => ?_]
      · exact h.unread
      · have hmem : c ∈ keysUpTo ordinalKey all s.buffer.lastLoaded := by
          rw [← h.window.taken]
          exact List.mem_append_left _ hc
        simpa using (List.mem_filter.mp hmem).2

/-- **A run** from a new buffer. -/
theorem windowed_of_run {db : Database}
    (hrun : runLabels (step chunk_size id account) (begin db) ls = some s) :
    Windowed (clampedChunk chunk_size) id account (candidates db id account) s :=
  invariant_runLabels (C := fun _ _ => True)
    (fun _ _ _ h _ hstep => h.step pairwise_candidates hstep) (windowed_begin _ db id account)
    (along_of_forall_mem fun _ _ => trivial) hrun

/-! ## The first `None` comes -/

/-- How far the call in hand is from its end. -/
def phase (s : Prefetching) : ℕ :=
  match s.consumer, s.buffer.loading with
  | .finished, _ => 0
  | .popping, some (.ready _) => 1
  | .popping, _ => 2
  | .idle, _ => 3
  | .priming, some (.ready _) => 4
  | .priming, _ => 5

/-- What is left of the scan, and of the call in hand. -/
def left (all : List BufferedCandidate) (s : Prefetching) : ℕ :=
  6 * (all.length - s.popped.length) + phase s

/-- A move of the buffer, not of the writers. -/
def PrefetchLabel.OfBuffer : PrefetchLabel → Prop
  | .write _ => False
  | _ => True

theorem left_popNow (hb : Window n all s.popped b) (hphase : 0 < phase s) :
    left all (CandidateBuffer.popNow n s b) < left all s := by
  unfold CandidateBuffer.popNow
  cases htake : b.takeFrom n with
  | none =>
      show 6 * (all.length - s.popped.length) + 0 < 6 * (all.length - s.popped.length) + phase s
      omega
  | some p =>
      obtain ⟨item, b'⟩ := p
      obtain ⟨queue, hq, -⟩ := takeFrom_eq_some htake
      have hlt : s.popped.length < all.length := by
        have htaken := congrArg List.length hb.taken
        rw [hq, List.length_append, List.length_cons] at htaken
        have hle : (keysUpTo ordinalKey all b.lastLoaded).length ≤ all.length :=
          List.length_filter_le ..
        omega
      show 6 * (all.length - (s.popped ++ [item]).length) + 3 <
        6 * (all.length - s.popped.length) + phase s
      rw [List.length_append, List.length_singleton]
      omega

/-- A call that waits for a read that has not been done. -/
theorem advances_read (hl : s.buffer.loading = some .requested)
    (hconsumer : s.consumer = .priming ∨ s.consumer = .popping) :
    ∃ l s', step chunk_size id account s l = some s' ∧ l.OfBuffer ∧ left all s' < left all s := by
  refine ⟨.read, { s with
    buffer := { s.buffer with
      loading := some (.ready (s.db.pendingChunk id account s.buffer.lastLoaded
        (clampedChunk chunk_size))) } }, ?_, trivial, ?_⟩
  · simp only [step, readChunk, hl]
    rfl
  · unfold left phase
    rcases hconsumer with hc | hc
    · simp [hc, hl]
    · simp [hc, hl]

/-- **A move is possible**, and brings the end nearer. -/
theorem Windowed.advances (h : Windowed (clampedChunk chunk_size) id account all s)
    (hs : all.Pairwise fun c c' => ordinalKey c < ordinalKey c')
    (hnot : s.consumer ≠ .finished) :
    ∃ l s', CandidateBuffer.step chunk_size id account s l = some s' ∧ l.OfBuffer ∧
      left all s' < left all s := by
  cases hconsumer : s.consumer with
  | finished => exact absurd hconsumer hnot
  | idle =>
      have hphase : phase s = 3 := by simp [phase, hconsumer]
      by_cases hempty : s.buffer.queue = [] ∧ s.buffer.submitFill.loading.isSome
      · refine ⟨.pop, { s with buffer := s.buffer.submitFill, consumer := .popping }, ?_, trivial,
          ?_⟩
        · simp only [CandidateBuffer.step, if_pos hconsumer, if_pos hempty]
        · have hless : phase { s with
              buffer := s.buffer.submitFill
              consumer := Consumer.popping } < 3 := by
            unfold phase
            split <;> simp_all
          unfold left
          rw [hphase]
          show 6 * (all.length - s.popped.length) + phase _ < _
          omega
      · refine ⟨.pop, CandidateBuffer.popNow (clampedChunk chunk_size) s s.buffer, ?_, trivial,
          left_popNow h.window (by omega)⟩
        simp only [CandidateBuffer.step, if_pos hconsumer, if_neg hempty]
  | priming =>
      obtain ⟨hq, hloading⟩ := h.waiting (Or.inl hconsumer)
      obtain ⟨loading, hl⟩ := Option.isSome_iff_exists.mp hloading
      cases loading with
      | requested => exact advances_read hl (Or.inl hconsumer)
      | ready rows =>
          refine ⟨.receive, { s with buffer := s.buffer.receive rows, consumer := .idle }, ?_,
            trivial, ?_⟩
          · simp only [CandidateBuffer.step, hl, hconsumer]
          · unfold left phase
            simp [hconsumer, hl]
  | popping =>
      obtain ⟨hq, hloading⟩ := h.waiting (Or.inr hconsumer)
      obtain ⟨loading, hl⟩ := Option.isSome_iff_exists.mp hloading
      cases loading with
      | requested => exact advances_read hl (Or.inr hconsumer)
      | ready rows =>
          have hphase : phase s = 1 := by simp [phase, hconsumer, hl]
          refine ⟨.receive, CandidateBuffer.popNow (clampedChunk chunk_size) s
            (s.buffer.receive rows), ?_, trivial, left_popNow
            (h.window.receive (clampedChunk_pos _) hs hq hl).1 (by omega)⟩
          simp only [CandidateBuffer.step, hl, hconsumer]

/-- **From every state** moves of the buffer lead to the first `None`. -/
theorem Windowed.finishes (hs : all.Pairwise fun c c' => ordinalKey c < ordinalKey c')
    (h : Windowed (clampedChunk chunk_size) id account all s) :
    ∃ ms s', runLabels (CandidateBuffer.step chunk_size id account) s ms = some s' ∧
      (∀ l ∈ ms, l.OfBuffer) ∧ s'.consumer = .finished := by
  induction hleft : left all s using Nat.strong_induction_on generalizing s with
  | _ k ih =>
      by_cases hdone : s.consumer = .finished
      · exact ⟨[], s, rfl, fun l hl => absurd hl List.not_mem_nil, hdone⟩
      · obtain ⟨l, s₁, hstep, hown, hless⟩ := h.advances hs hdone
        obtain ⟨ms, s', hrun, hms, hend⟩ := ih _ (hleft ▸ hless) (h.step hs hstep) rfl
        refine ⟨l :: ms, s', runLabels_cons_eq_some.mpr ⟨s₁, hstep, hrun⟩, ?_, hend⟩
        intro m hm
        rcases List.mem_cons.mp hm with rfl | hm
        · exact hown
        · exact hms m hm

/-- **`pop` returns the scan of the start** until its first `None`, whatever the pages and their
moments, and the queue holds at most a chunk; the first `None` comes. -/
theorem pops_the_scan {db : Database}
    (hrun : runLabels (step chunk_size id account) (begin db) ls = some s) :
    s.buffer.queue.length ≤ clampedChunk chunk_size ∧
      clampedChunk chunk_size ≤ CANDIDATE_PREFETCH_MAX ∧
      s.popped <+: candidates db id account ∧
      (s.consumer = .finished → s.popped = candidates db id account) ∧
      ∃ ms s', runLabels (step chunk_size id account) s ms = some s' ∧
        (∀ l ∈ ms, l.OfBuffer) ∧ s'.consumer = .finished := by
  have h := windowed_of_run hrun
  have hsplit := keysUpTo_append_keysAbove (@pairwise_candidates db id account) s.buffer.lastLoaded
  rw [← h.window.taken, List.append_assoc] at hsplit
  refine ⟨h.window.bound, clampedChunk_le _, ⟨_, hsplit⟩, fun hdone => ?_,
    h.finishes pairwise_candidates⟩
  obtain ⟨hq, hex⟩ := h.finished hdone
  have htaken := h.window.taken
  rwa [hq, List.append_nil, h.window.exhausted hex] at htaken

/-- A job with a READY and a RETRY item behind a finished one. -/
def twoPending : Database where
  jobs :=
    [{ jobType := .migration
       state := .running
       accountId := some 1
       targetGroupId := some 1
       counters := ⟨3, 1, 1, 0, 0⟩
       waitingUntil := none
       checkpoint := {}
       items :=
        ⟨[⟨0, 5, .success, 1, none, none, none⟩, ⟨1, 6, .ready, 0, none, none, none⟩,
          ⟨2, 7, .retry, 2, none, none, none⟩], by decide⟩ }]
  accounts := fun _ => none
  restrictions := []
  peers :=
    { members := fun m => some (m : ℤ), groups := [], peerCache := fun _ _ => none }
  journal := []

/-- The first candidate is updated while the read behind the second is under way. -/
def updatedOnTheWay : List PrefetchLabel :=
  [.prime, .read, .receive, .pop, .pop, .write (.job 0 (.updateItems [⟨1, .success, 1, none, none⟩]
    none)), .read, .pop, .receive]

theorem pops_the_scan_updated :
    ∃ s, runLabels (step 7 0 1) (begin twoPending) updatedOnTheWay = some s ∧
      s.consumer = .finished ∧ s.popped = candidates twoPending 0 1 ∧
      (candidates twoPending 0 1).map (fun c => (c.ordinal, c.persistedAttempts)) =
        [(1, 0), (2, 2)] := by
  have hall : (runLabels (step 7 0 1) (begin twoPending) updatedOnTheWay).map
      (fun s => s.consumer) = some .finished := by decide +kernel
  obtain ⟨s, hs, hdone⟩ := Option.map_eq_some_iff.mp hall
  exact ⟨s, hs, hdone, (pops_the_scan hs).2.2.2.1 hdone, by decide +kernel⟩

end CandidateBuffer
end Migration
end MigrationStudio
