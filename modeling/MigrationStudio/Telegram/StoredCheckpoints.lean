import MigrationStudio.Jobs.CheckpointText
import MigrationStudio.Telegram.ParticipantScanner

/-!
# The checkpoints of a scan as they are stored

A scan writes its checkpoint as a text of JSON: with two counters when it begins, with three behind
each batch and at its end, and with the text of the exception when it fails.  After a restart
`normalize_after_restart` reads the text and writes it again with a mark, and `resume_scan` converts
the three counters with `int`, which counts a missing or falsy one as 0.

`ScanState` keeps the counters themselves.  `StoredScan` is the same scan with the text in their
place, and a run of it is a run of `ScanState`: what `resume_scan` reads is what was written,
whatever the exceptions say and however often the application has been restarted in between.

* `StoredScan`, `step`: a scan whose row has the text of its checkpoint.
* `Holds`: the column has a text for the counters; `resumed_eq`: `resume_scan` reads them.
* `Refines`, `Refines.step`, `Refines.exists_step`: the steps of the two are the same, as long as no
  counter has more digits than may be converted.
* `resumed_of_run`: the runs, and what is in the dataset in front of the offset that is read.
-/

namespace MigrationStudio
namespace Telegram
namespace ParticipantScanner

open Foundations MigrationStudio.Core Members Jobs
open Members.MemberTables (HasPerson)

/-! ## What `resume_scan` reads -/

/-- The truth value of what `json.loads` returns. -/
def truthy : JsonValue → Bool
  | .null => false
  | .bool b => b
  | .int n => n ≠ 0
  | .float (.finite d) => d.value ≠ 0
  | .float _ => true
  | .string s => s ≠ []
  | .array values => !values.isEmpty
  | .object entries => !entries.isEmpty

section

variable (limits : Limits) (intOfText : PyStr → Option ℤ)

/-- `int` of what `json.loads` returns; `none` where it raises.  `intOfText` is `int` of a string.
-/
def intOf : JsonValue → Option ℤ
  | .bool b => some b.toInt
  | .int n => some n
  | .float (.finite d) => some (d.value.num.tdiv d.value.den)
  | .string s => intOfText s
  | _ => none

/-- `int(checkpoint_data.get(key, 0) or 0)`. -/
def counter (checkpoint : Dictionary) (key : PyStr) : Option ℤ :=
  match dictGet checkpoint key with
  | none => some 0
  | some v => if truthy v then intOf intOfText v else some 0

def offsetKey : PyStr := text "offset"

def acceptedKey : PyStr := text "accepted"

def invalidKey : PyStr := text "invalid"

def errorKey : PyStr := text "error"

def recoveredKey : PyStr := text "recovered_after_restart"

/-- The `ScanCheckpoint` of `resume_scan`; `none` where it raises or a counter is negative. -/
def resumed (column : CheckpointColumn) : Option ScanCheckpoint :=
  match getCheckpoint limits column with
  | some (.object checkpoint) => do
      let offset ← counter intOfText checkpoint offsetKey
      let accepted ← counter intOfText checkpoint acceptedKey
      let invalid ← counter intOfText checkpoint invalidKey
      some ⟨← offset.toNat?, ← accepted.toNat?, ← invalid.toNat?⟩
  | _ => none

end

/-! ## What is written -/

/-- The dictionary that a call begins with. -/
def ScanCheckpoint.started (cp : ScanCheckpoint) : Dictionary :=
  [(offsetKey, .int cp.offset), (acceptedKey, .int cp.accepted)]

/-- The dictionary behind a batch, and at the end. -/
def ScanCheckpoint.dictionary (cp : ScanCheckpoint) : Dictionary :=
  cp.started ++ [(invalidKey, .int cp.invalid)]

/-- The dictionary of a scan that fails; `error` is `str(exc)`. -/
def ScanCheckpoint.failed (cp : ScanCheckpoint) (error : PyStr) : Dictionary :=
  cp.dictionary ++ [(errorKey, .string error)]

/-- A scan whose row has the text of its checkpoint. -/
structure StoredScan where
  tables : MemberTables
  state : JobState
  checkpointJson : CheckpointColumn
  call : Option Call

namespace StoredScan

section

variable (floatRepr : Float64 → PyStr) (limits : Limits) (intOfText : PyStr → Option ℤ) (sc : Scan)

/-- The column after a step, for which `error` is the text of the exception of a call that fails;
`none` where the write raises. -/
def columnAfter (s : StoredScan) (l : ScanLabel) (error : PyStr) : Option CheckpointColumn :=
  match s.call, l with
  | some c, .running => submitSetState floatRepr limits s.checkpointJson (some c.cp.started)
  | some c, .checkpoint => submitCheckpoint floatRepr limits c.cp.dictionary
  | some c, .complete => submitSetState floatRepr limits s.checkpointJson (some c.cp.dictionary)
  | some c, .fail => submitSetState floatRepr limits s.checkpointJson (some (c.cp.failed error))
  | none, .normalize =>
      if s.state = .running then
        match getCheckpoint limits s.checkpointJson with
        | some (.object checkpoint) =>
            submitSetState floatRepr limits s.checkpointJson
              (some (dictSet checkpoint recoveredKey (.bool true)))
        | _ => none
      else some s.checkpointJson
  | _, _ => some s.checkpointJson

/-- The scan with some counters in the place of the text. -/
def withCheckpoint (s : StoredScan) (cp : ScanCheckpoint) : ScanState :=
  ⟨s.tables, ⟨s.state, cp⟩, s.call⟩

/-- The counters of a step that looks at them: only the continuation of a paused scan does. -/
def lookedAt (s : StoredScan) (l : ScanLabel) : Option ScanCheckpoint :=
  if l = .resume then resumed limits intOfText s.checkpointJson else some {}

/-- One step. -/
def step (s : StoredScan) (e : ScanLabel × PyStr) : Option StoredScan := do
  let column ← s.columnAfter floatRepr limits e.1 e.2
  let cp ← s.lookedAt limits intOfText e.1
  let t ← (s.withCheckpoint cp).step sc e.1
  some ⟨t.tables, t.job.state, column, t.call⟩

end

end StoredScan

/-! ## A text for the counters -/

/-- A counter of a dictionary, which counts as 0 where it is missing. -/
def Counts (d : Dictionary) (key : PyStr) (n : ℕ) : Prop :=
  (dictGet d key).getD (.int 0) = .int n

/-- The dictionary has the counters. -/
structure CountsAll (d : Dictionary) (cp : ScanCheckpoint) : Prop where
  offset : Counts d offsetKey cp.offset
  accepted : Counts d acceptedKey cp.accepted
  invalid : Counts d invalidKey cp.invalid

/-- The column has a text for the counters, which can be written again. -/
structure Holds (limits : Limits) (column : CheckpointColumn) (cp : ScanCheckpoint) : Prop where
  dictionary : ∃ d, getCheckpoint limits column = some (.object d) ∧ Flat d ∧ CountsAll d cp ∧
    ∀ entry ∈ d, ∀ n, entry.2 = .int n → FitsLimit limits n

section

variable {floatRepr : Float64 → PyStr} {limits : Limits} {intOfText : PyStr → Option ℤ}
  {d : Dictionary} {key : PyStr} {n : ℕ} {column column' : CheckpointColumn}
  {cp : ScanCheckpoint} {error : PyStr}

theorem Counts.counter_eq (h : Counts d key n) : counter intOfText d key = some (n : ℤ) := by
  unfold Counts at h
  rw [counter]
  cases hlookup : dictGet d key with
  | none =>
    rw [hlookup] at h
    exact congrArg some (JsonValue.int.inj h)
  | some v =>
    rw [hlookup] at h
    obtain rfl : v = .int n := h
    by_cases hn : n = 0
    · subst hn
      rfl
    · have htruthy : truthy (.int n) = true := decide_eq_true (Int.natCast_ne_zero.mpr hn)
      dsimp only
      rw [if_pos htruthy]
      rfl

theorem Counts.dictSet (h : Counts d key n) {key' : PyStr} (hne : key ≠ key') (v : JsonValue) :
    Counts (dictSet d key' v) key n := by
  rw [Counts, dictGet_dictSet, if_neg hne]
  exact h

theorem Counts.readEntries (h : Counts d key n) (hd : Flat d) :
    Counts (JsonValue.readEntries d) key n := by
  unfold Counts at h ⊢
  rw [hd.dictGet_readEntries]
  cases hlookup : dictGet d key with
  | none =>
    rw [hlookup] at h
    exact h
  | some v =>
    rw [hlookup] at h
    obtain rfl : v = .int n := h
    rfl

/-- **`resume_scan` reads the counters.** -/
theorem Holds.resumed_eq (h : Holds limits column cp) :
    resumed limits intOfText column = some cp := by
  obtain ⟨d, hget, -, hcounts, -⟩ := h.dictionary
  rw [resumed, hget]
  dsimp only
  rw [hcounts.offset.counter_eq, hcounts.accepted.counter_eq, hcounts.invalid.counter_eq]
  rfl

/-- **What is stored is held**, whatever strings are beside the counters. -/
theorem holds_of_storeText (hd : Flat d) (hcounts : CountsAll d cp)
    (hstore : (storeText floatRepr limits d).map some = some column) : Holds limits column cp := by
  obtain ⟨bytes, hbytes, rfl⟩ := Option.map_eq_some_iff.mp hstore
  refine ⟨JsonValue.readEntries d, getCheckpoint_of_storeText hd hbytes, hd.readEntries,
    ⟨hcounts.offset.readEntries hd, hcounts.accepted.readEntries hd,
      hcounts.invalid.readEntries hd⟩, ?_⟩
  have hfits := hd.isSome_storeText_iff.mp (Option.isSome_of_eq_some hbytes)
  rw [hd.readEntries_eq]
  refine List.forall_mem_map.mpr fun entry hentry n hn => ?_
  refine hfits entry hentry n ?_
  have hscalar := hd.scalar entry hentry
  generalize entry.2 = v at hn hscalar ⊢
  cases v with
  | int m => exact hn
  | null | bool _ | string _ | float _ => exact absurd hn nofun
  | array _ | object _ => exact absurd hscalar id

theorem flat_failed (cp : ScanCheckpoint) (error : PyStr) : Flat (cp.failed error) where
  keys := by
    show [offsetKey, acceptedKey, invalidKey, errorKey].Nodup
    decide
  noPairs := by
    have hall : ∀ key ∈ [offsetKey, acceptedKey, invalidKey, errorKey], NoPairs key := by decide
    exact List.forall_mem_map.mp hall
  scalar := by
    rw [ScanCheckpoint.failed, ScanCheckpoint.dictionary, ScanCheckpoint.started,
      List.forall_mem_append, List.forall_mem_append, List.forall_mem_cons,
      List.forall_mem_singleton, List.forall_mem_singleton, List.forall_mem_singleton]
    exact ⟨⟨⟨trivial, trivial⟩, trivial⟩, trivial⟩

theorem countsAll_failed (cp : ScanCheckpoint) (error : PyStr) : CountsAll (cp.failed error) cp :=
  ⟨rfl, rfl, rfl⟩

theorem flat_dictionary (cp : ScanCheckpoint) : Flat cp.dictionary := (flat_failed cp []).of_append

theorem countsAll_dictionary (cp : ScanCheckpoint) : CountsAll cp.dictionary cp := ⟨rfl, rfl, rfl⟩

theorem flat_started (cp : ScanCheckpoint) : Flat cp.started := (flat_dictionary cp).of_append

theorem countsAll_started (cp : ScanCheckpoint) :
    CountsAll cp.started { offset := cp.offset, accepted := cp.accepted } :=
  ⟨rfl, rfl, rfl⟩

end

/-! ## The steps -/

namespace ScanState

/-- The counters that a step writes, if any. -/
def writes : Option Call → ScanLabel → Option ScanCheckpoint
  | some c, .running => some { offset := c.cp.offset, accepted := c.cp.accepted }
  | some c, .checkpoint | some c, .complete | some c, .fail => some c.cp
  | _, _ => none

/-- **The counters of the row** are touched by the steps that write them, and are looked at by the
continuation of a paused scan only. -/
theorem step_withCheckpoint {sc : Scan} {s t : ScanState} {l : ScanLabel} (cp : ScanCheckpoint)
    (hcp : l = .resume → cp = s.job.checkpoint)
    (h : ScanState.step sc ⟨s.tables, ⟨s.job.state, cp⟩, s.call⟩ l = some t) :
    s.step sc l =
      some ⟨t.tables, ⟨t.job.state, (writes s.call l).getD s.job.checkpoint⟩, t.call⟩ := by
  obtain ⟨tables, ⟨state, checkpoint⟩, call⟩ := s
  dsimp only at hcp h ⊢
  cases call with
  | none =>
    cases l with
    | start =>
      simp only [step] at h ⊢
      split_ifs at h ⊢ with hready
      exact Option.some.inj h ▸ rfl
    | resume =>
      obtain rfl := hcp rfl
      simp only [step] at h ⊢
      split_ifs at h ⊢ with hpaused
      exact Option.some.inj h ▸ rfl
    | normalize =>
      simp only [step] at h ⊢
      split_ifs at h ⊢ with hrunning
      · exact Option.some.inj h ▸ rfl
      · exact Option.some.inj h ▸ rfl
    | running | fetch _ | exhausted | put | take | ingest | checkpoint | finish | complete
    | cancel | fail | crash => exact absurd h nofun
  | some c =>
    rw [step_of_call rfl] at h ⊢
    cases transition_of_callStep h with
    | running hpoint => simp [callStep, hpoint, writes]
    | stopped hpoint hproducer hcancel => simp [callStep, hpoint, hproducer, hcancel, writes]
    | fetched hpoint hproducer hcancel => simp [callStep, hpoint, hproducer, hcancel, writes]
    | exhausted hpoint hproducer hlen => simp [callStep, hpoint, hproducer, hlen, writes]
    | put hproducer hroom => simp [callStep, hproducer, hroom, writes]
    | take hwait hqueue => simp [callStep, hwait, hqueue, writes]
    | ingest hpoint hrun => simp [callStep, hpoint, hrun, writes]
    | checkpoint hpoint => simp [callStep, hpoint, writes]
    | finish hpoint hended hreturned => simp [callStep, hpoint, hended, hreturned, writes]
    | complete hpoint => simp [callStep, hpoint, writes]
    | cancel => rfl
    | fail => rfl
    | crash => rfl

end ScanState

namespace StoredScan

section

variable {floatRepr : Float64 → PyStr} {limits : Limits} {intOfText : PyStr → Option ℤ} {sc : Scan}
  {d d' : StoredScan} {s s' : ScanState} {l : ScanLabel} {error : PyStr}

/-- The dictionary of a step that writes one, and its counters. -/
theorem holds_columnAfter {cp : ScanCheckpoint} {column : CheckpointColumn}
    (h : Holds limits d.checkpointJson cp)
    (hcolumn : d.columnAfter floatRepr limits l error = some column) :
    Holds limits column ((ScanState.writes d.call l).getD cp) := by
  unfold columnAfter at hcolumn
  cases hcall : d.call with
  | none =>
    rw [hcall] at hcolumn
    cases l with
    | normalize =>
      obtain ⟨checkpoint, hget, hflat, hcounts, -⟩ := h.dictionary
      dsimp only at hcolumn
      split_ifs at hcolumn with hrunning
      · rw [hget] at hcolumn
        -- the mark is no counter
        have hmark : IsScalar (.bool true) := trivial
        exact holds_of_storeText (hflat.dictSet (by decide) hmark)
          ⟨hcounts.offset.dictSet (by decide) _, hcounts.accepted.dictSet (by decide) _,
            hcounts.invalid.dictSet (by decide) _⟩ hcolumn
      · exact Option.some.inj hcolumn ▸ h
    | start | resume | running | fetch _ | exhausted | put | take | ingest | checkpoint | finish
    | complete | cancel | fail | crash => exact Option.some.inj hcolumn ▸ h
  | some c =>
    rw [hcall] at hcolumn
    cases l with
    | running => exact holds_of_storeText (flat_started c.cp) (countsAll_started c.cp) hcolumn
    | checkpoint | complete =>
      exact holds_of_storeText (flat_dictionary c.cp) (countsAll_dictionary c.cp) hcolumn
    | fail =>
      exact holds_of_storeText (flat_failed c.cp error) (countsAll_failed c.cp error) hcolumn
    | start | resume | normalize | fetch _ | exhausted | put | take | ingest | finish | cancel
    | crash => exact Option.some.inj hcolumn ▸ h

/-- The scan with the text is the scan with the counters. -/
structure Refines (limits : Limits) (d : StoredScan) (s : ScanState) : Prop where
  tables : d.tables = s.tables
  state : d.state = s.job.state
  call : d.call = s.call
  holds : Holds limits d.checkpointJson s.job.checkpoint

/-- **One step** of the scan with the text is the same step of the scan with the counters. -/
theorem Refines.step (h : Refines limits d s)
    (hstep : d.step floatRepr limits intOfText sc (l, error) = some d') :
    ∃ s', s.step sc l = some s' ∧ Refines limits d' s' := by
  obtain ⟨column, hcolumn, hrest⟩ := Option.bind_eq_some_iff.mp hstep
  obtain ⟨cp, hcp, hrest⟩ := Option.bind_eq_some_iff.mp hrest
  obtain ⟨t, ht, heq⟩ := Option.bind_eq_some_iff.mp hrest
  obtain rfl := Option.some.inj heq
  have hresume : l = .resume → cp = s.job.checkpoint := by
    rintro rfl
    rw [lookedAt, if_pos rfl, h.holds.resumed_eq] at hcp
    exact (Option.some.inj hcp).symm
  have hholds := holds_columnAfter h.holds hcolumn
  rw [withCheckpoint, h.tables, h.state, h.call] at ht
  rw [h.call] at hholds
  exact ⟨_, ScanState.step_withCheckpoint cp hresume ht, rfl, rfl, rfl, hholds⟩

/-- **A whole run.** -/
theorem Refines.run (h : Refines limits d s) {es : List (ScanLabel × PyStr)}
    (hrun : runLabels (StoredScan.step floatRepr limits intOfText sc) d es = some d') :
    ∃ s', runLabels (ScanState.step sc) s (es.map Prod.fst) = some s' ∧ Refines limits d' s' := by
  induction es generalizing d s with
  | nil => exact ⟨s, rfl, Option.some.inj hrun ▸ h⟩
  | cons e es ih =>
      obtain ⟨u, hu, hrest⟩ := runLabels_cons_eq_some.mp hrun
      obtain ⟨v, hv, hrefines⟩ := h.step hu
      obtain ⟨s', hs', hfinal⟩ := ih hrefines hrest
      exact ⟨s', runLabels_cons_eq_some.mpr ⟨v, hv, hs'⟩, hfinal⟩

/-- The counters have no more digits than may be converted. -/
def CountersFit (limits : Limits) (cp : ScanCheckpoint) : Prop :=
  FitsLimit limits cp.offset ∧ FitsLimit limits cp.accepted ∧ FitsLimit limits cp.invalid

theorem CountersFit.failed {cp : ScanCheckpoint} (h : CountersFit limits cp) (error : PyStr) :
    ∀ entry ∈ cp.failed error, ∀ n, entry.2 = .int n → FitsLimit limits n := by
  obtain ⟨hoffset, haccepted, hinvalid⟩ := h
  rw [ScanCheckpoint.failed, ScanCheckpoint.dictionary, ScanCheckpoint.started,
    List.forall_mem_append, List.forall_mem_append, List.forall_mem_cons,
    List.forall_mem_singleton, List.forall_mem_singleton, List.forall_mem_singleton]
  refine ⟨⟨⟨fun n hn => ?_, fun n hn => ?_⟩, fun n hn => ?_⟩, fun n hn => absurd hn nofun⟩
  · exact JsonValue.int.inj hn ▸ hoffset
  · exact JsonValue.int.inj hn ▸ haccepted
  · exact JsonValue.int.inj hn ▸ hinvalid

theorem exists_stored {checkpoint : Dictionary} (hflat : Flat checkpoint)
    (hfits : ∀ entry ∈ checkpoint, ∀ n, entry.2 = .int n → FitsLimit limits n) :
    ∃ column, (storeText floatRepr limits checkpoint).map some = some (some column) := by
  obtain ⟨bytes, hbytes⟩ := Option.isSome_iff_exists.mp (hflat.isSome_storeText_iff.mpr hfits)
  exact ⟨bytes, congrArg (Option.map some) hbytes⟩

/-- **No write raises** while the counters can be converted. -/
theorem exists_columnAfter {cp : ScanCheckpoint} (h : Holds limits d.checkpointJson cp)
    (hfits : ∀ c ∈ d.call, CountersFit limits c.cp) (l : ScanLabel) (error : PyStr) :
    ∃ column, d.columnAfter floatRepr limits l error = some column := by
  unfold columnAfter
  cases hcall : d.call with
  | none =>
    cases l with
    | normalize =>
      obtain ⟨checkpoint, hget, hflat, -, hints⟩ := h.dictionary
      dsimp only
      split_ifs with hrunning
      · rw [hget]
        have hmark : IsScalar (.bool true) := trivial
        obtain ⟨bytes, hbytes⟩ := @exists_stored floatRepr limits _
          (hflat.dictSet (by decide : NoPairs recoveredKey) hmark) fun entry hentry n hn => by
            rcases mem_dictSet hentry with hmem | rfl
            · exact hints entry hmem n hn
            · exact absurd hn nofun
        exact ⟨some bytes, hbytes⟩
      · exact ⟨_, rfl⟩
    | start | resume | running | fetch _ | exhausted | put | take | ingest | checkpoint | finish
    | complete | cancel | fail | crash => exact ⟨_, rfl⟩
  | some c =>
    have hfailed := (hfits c hcall).failed
    have hdictionary : ∀ entry ∈ c.cp.dictionary, ∀ n, entry.2 = .int n → FitsLimit limits n :=
      fun entry hentry => hfailed [] entry (List.mem_append_left _ hentry)
    cases l with
    | running =>
      obtain ⟨bytes, hbytes⟩ := @exists_stored floatRepr limits _ (flat_started c.cp)
        fun entry hentry => hdictionary entry (List.mem_append_left _ hentry)
      exact ⟨some bytes, hbytes⟩
    | checkpoint | complete =>
      obtain ⟨bytes, hbytes⟩ :=
        @exists_stored floatRepr limits _ (flat_dictionary c.cp) hdictionary
      exact ⟨some bytes, hbytes⟩
    | fail =>
      obtain ⟨bytes, hbytes⟩ :=
        @exists_stored floatRepr limits _ (flat_failed c.cp error) (hfailed error)
      exact ⟨some bytes, hbytes⟩
    | start | resume | normalize | fetch _ | exhausted | put | take | ingest | finish | cancel
    | crash => exact ⟨_, rfl⟩

/-- **One step** of the scan with the counters is one of the scan with the text. -/
theorem Refines.exists_step (h : Refines limits d s) (hstep : s.step sc l = some s')
    (hfits : ∀ c ∈ s.call, CountersFit limits c.cp) (error : PyStr) :
    ∃ d', d.step floatRepr limits intOfText sc (l, error) = some d' ∧ Refines limits d' s' := by
  obtain ⟨column, hcolumn⟩ :=
    @exists_columnAfter floatRepr limits d _ h.holds (h.call ▸ hfits) l error
  obtain ⟨cp, hcp, hresume⟩ : ∃ cp, d.lookedAt limits intOfText l = some cp ∧
      (l = .resume → s.job.checkpoint = cp) := by
    by_cases hl : l = .resume
    · exact ⟨_, by rw [lookedAt, if_pos hl, h.holds.resumed_eq], fun _ => rfl⟩
    · exact ⟨_, by rw [lookedAt, if_neg hl], fun hresume => absurd hresume hl⟩
  have ht := @ScanState.step_withCheckpoint sc ⟨s.tables, ⟨s.job.state, cp⟩, s.call⟩ s' l
    s.job.checkpoint hresume hstep
  rw [← h.tables, ← h.state, ← h.call] at ht
  have hd : d.step floatRepr limits intOfText sc (l, error) =
      some ⟨s'.tables, s'.job.state, column, s'.call⟩ := by
    rw [StoredScan.step, hcolumn, hcp]
    simp only [Option.bind_eq_bind, Option.bind_some]
    rw [withCheckpoint, ht, Option.bind_some]
  obtain ⟨u, hu, hrefines⟩ := h.step hd
  obtain rfl := Option.some.inj (hstep.symm.trans hu)
  exact ⟨_, hd, hrefines⟩

/-- **A whole run**, whatever the exceptions say. -/
theorem Refines.exists_run (h : Refines limits d s) {es : List (ScanLabel × PyStr)}
    (hrun : runLabels (ScanState.step sc) s (es.map Prod.fst) = some s')
    (hfits : Along (ScanState.step sc) (fun s _ => ∀ c ∈ s.call, CountersFit limits c.cp) s
      (es.map Prod.fst)) :
    ∃ d', runLabels (StoredScan.step floatRepr limits intOfText sc) d es = some d' ∧
      Refines limits d' s' := by
  induction es generalizing d s with
  | nil => exact ⟨d, rfl, Option.some.inj hrun ▸ h⟩
  | cons e es ih =>
      obtain ⟨l, error⟩ := e
      obtain ⟨u, hu, hrest⟩ := runLabels_cons_eq_some.mp hrun
      obtain ⟨hfirst, hfits⟩ := (along_cons hu).mp hfits
      obtain ⟨v, hv, hrefines⟩ := @Refines.exists_step floatRepr limits intOfText sc d s u l h hu
        hfirst error
      obtain ⟨d', hd', hfinal⟩ := ih hrefines hrest hfits
      exact ⟨d', runLabels_cons_eq_some.mpr ⟨v, hv, hd'⟩, hfinal⟩

end

/-- What `scan_source` prepares: `checkpoint_json` is NULL. -/
def start (t : MemberTables) : StoredScan := ⟨t.createDataset, .ready, none, none⟩

theorem refines_start (limits : Limits) (t : MemberTables) :
    Refines limits (start t) (scanSource t) :=
  ⟨rfl, rfl, rfl, [], rfl, ⟨List.nodup_nil, nofun, nofun⟩, ⟨rfl, rfl, rfl⟩, nofun⟩

/-- **What `resume_scan` reads** after any run of a scan, through batches, failures with any text,
stops and restarts: the counters that the last write of the scan had.  Every participant in front of
the offset is in the dataset. -/
theorem resumed_of_run {pyLower : String → String} {store : List Storage.StoreLabel}
    {db : Storage.MemberStore}
    (hstore :
      runLabels (Storage.MemberStore.step pyLower) Storage.MemberStore.start store = some db)
    {participants : List Members.Member} (hids : ∀ m ∈ participants, m.telegramUserId.isSome)
    {group : Option GroupId} {account : AccountId} {label : Option String}
    {floatRepr : Float64 → PyStr} {limits : Limits} {intOfText : PyStr → Option ℤ}
    {es : List (ScanLabel × PyStr)} {d : StoredScan}
    (hrun : runLabels (step floatRepr limits intOfText
      (scanOf db.tables participants group account label)) (start db.tables) es = some d) :
    ∃ s, runLabels (ScanState.step (scanOf db.tables participants group account label))
        (scanSource db.tables) (es.map Prod.fst) = some s ∧
      d.tables = s.tables ∧ d.state = s.job.state ∧ d.call = s.call ∧
      resumed limits intOfText d.checkpointJson = some s.job.checkpoint ∧
      ∀ m ∈ participants.take s.job.checkpoint.offset, ∀ x, m.telegramUserId = some x →
        HasPerson (scanOf db.tables participants group account label).into d.tables x := by
  have hdb := (Storage.MemberStore.good_of_run Storage.MemberStore.good_start hstore).1.sound
  obtain ⟨s, hs, hrefines⟩ := (refines_start limits db.tables).run hrun
  have hgood := good_of_run (good_scanSource hdb participants group account label) hids hs
  refine ⟨s, hs, hrefines.tables, hrefines.state, hrefines.call, hrefines.holds.resumed_eq, ?_⟩
  rw [hrefines.tables]
  exact hgood.checkpoint

/-- Two participants are stored; then the application stops and is started again. -/
def stoppedAfterCheckpoint : List ScanLabel :=
  [.start, .running, .fetch 2, .put, .exhausted, .put, .take, .take, .ingest, .checkpoint, .crash,
    .normalize]

theorem resumed_of_run_stopped :
    ∃ db d, runLabels (Storage.MemberStore.step id) Storage.MemberStore.start
        [.createAccount 1, .createGroup] = some db ∧
      runLabels (step (fun _ => []) ⟨0, 1, by decide⟩ (fun _ => none) (scanOf db.tables
          [{ telegramUserId := some 5, accessHash := some 50 }, { telegramUserId := some 6 }]
          (some 0) 1 (some "source"))) (start db.tables)
        (stoppedAfterCheckpoint.map fun l => (l, [])) = some d ∧
      d.state = .paused ∧
      resumed ⟨0, 1, by decide⟩ (fun _ => none) d.checkpointJson = some ⟨2, 2, 0⟩ := by
  obtain ⟨db, hdb⟩ : ∃ db, runLabels (Storage.MemberStore.step id) Storage.MemberStore.start
      [.createAccount 1, .createGroup] = some db := ⟨_, rfl⟩
  have hlabels : (stoppedAfterCheckpoint.map fun l => (l, ([] : PyStr))).map Prod.fst =
      stoppedAfterCheckpoint := by decide
  obtain ⟨s, hs, hstate, hcheckpoint⟩ : ∃ s, runLabels (ScanState.step (scanOf db.tables
      [{ telegramUserId := some 5, accessHash := some 50 }, { telegramUserId := some 6 }]
      (some 0) 1 (some "source"))) (scanSource db.tables) stoppedAfterCheckpoint = some s ∧
      s.job.state = .paused ∧ s.job.checkpoint = ⟨2, 2, 0⟩ := by
    have hjob : (runLabels (ScanState.step (scanOf db.tables
        [{ telegramUserId := some 5, accessHash := some 50 }, { telegramUserId := some 6 }]
        (some 0) 1 (some "source"))) (scanSource db.tables) stoppedAfterCheckpoint).map
        (fun s => s.job) = some ⟨.paused, ⟨2, 2, 0⟩⟩ := by
      obtain rfl := Option.some.inj hdb
      decide +kernel
    obtain ⟨s, hs, hjob⟩ := Option.map_eq_some_iff.mp hjob
    exact ⟨s, hs, congrArg ScanJob.state hjob, congrArg ScanJob.checkpoint hjob⟩
  obtain ⟨d, hd, -⟩ := @Refines.exists_run (fun _ => []) ⟨0, 1, by decide⟩ (fun _ => none) _ _ _ s
    (refines_start _ db.tables) (stoppedAfterCheckpoint.map fun l => (l, []))
    (by rw [hlabels]; exact hs)
    (Along.mono (fun _ _ _ _ _ => ⟨Or.inl rfl, Or.inl rfl, Or.inl rfl⟩)
      (along_of_forall_mem fun _ _ => trivial))
  obtain ⟨s', hs', -, hstate', -, hresumed, -⟩ := resumed_of_run hdb (by decide) hd
  rw [hlabels, hs] at hs'
  obtain rfl := Option.some.inj hs'
  exact ⟨db, d, hdb, hd, hstate'.trans hstate, hresumed.trans (congrArg some hcheckpoint)⟩

end StoredScan

end ParticipantScanner
end Telegram
end MigrationStudio
