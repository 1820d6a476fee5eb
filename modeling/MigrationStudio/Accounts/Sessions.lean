import MigrationStudio.Accounts.StateColumns
import MigrationStudio.Members.Repository

/-!
# `accounts/service.py`

`AccountService.add` stores the phone as it is written, without the white space around it, and a
session path whose file name is the digits of the phone.  `delete` removes the row of an account
and then the file at its session path with the three files that SQLite keeps beside it.

No phone is stored twice, but the digits of a phone do not tell whether it was written with a `+`:
two accounts whose phones differ by the sign alone have one session file.

* `digits`, `sessionPath`: the session path of a phone.
* `SessionStore.step`: the two calls, and what changes on the disk between them.
* `SessionStore.NewDigits`: no account has the digits of the new phone under another spelling.
* `session_paths_distinct_iff`: the runs in which no two accounts share a session.
-/

namespace MigrationStudio
namespace Accounts

open MigrationStudio.Core Foundations

/-! ## Phones -/

/-- The decimal digits of Unicode stand in tens; these are the zeros. -/
def digitZeros : List ℕ :=
  [0x30, 0x660, 0x6f0, 0x7c0, 0x966, 0x9e6, 0xa66, 0xae6, 0xb66, 0xbe6, 0xc66, 0xce6, 0xd66, 0xde6,
    0xe50, 0xed0, 0xf20, 0x1040, 0x1090, 0x17e0, 0x1810, 0x1946, 0x19d0, 0x1a80, 0x1a90, 0x1b50,
    0x1bb0, 0x1c40, 0x1c50, 0xa620, 0xa8d0, 0xa900, 0xa9d0, 0xa9f0, 0xaa50, 0xabf0, 0xff10, 0x104a0,
    0x10d30, 0x11066, 0x110f0, 0x11136, 0x111d0, 0x112f0, 0x11450, 0x114d0, 0x11650, 0x116c0,
    0x11730, 0x118e0, 0x11950, 0x11c50, 0x11d50, 0x11da0, 0x11f50, 0x16a60, 0x16ac0, 0x16b50,
    0x1d7ce, 0x1d7d8, 0x1d7e2, 0x1d7ec, 0x1d7f6, 0x1e140, 0x1e2f0, 0x1e4f0, 0x1e950, 0x1fbf0]

/-- `\d`, for one character. -/
def isDigit (c : Char) : Bool :=
  digitZeros.any fun first => first ≤ c.toNat && c.toNat ≤ first + 9

/-- `re.fullmatch(r'\+?\d{7,16}', phone)`. -/
def matchesPhone (phone : String) : Bool :=
  let number :=
    match phone.toList with
    | '+' :: rest => rest
    | chars => chars
  number.all isDigit && 7 ≤ number.length && number.length ≤ 16

/-- `re.sub(r'\D', '', phone)`. -/
def digits (phone : String) : String := String.ofList (phone.toList.filter isDigit)

/-- `str(sessions_dir / f'{safe}.session')`. -/
def sessionPath (sessionsDir safe : String) : String :=
  sessionsDir ++ "/" ++ safe ++ ".session"

/-- The files that `delete` removes. -/
def sessionCandidates (path : String) : List String :=
  [path, path ++ "-journal", path ++ "-wal", path ++ "-shm"]

theorem sessionPath_inj {dir safe safe' : String} :
    sessionPath dir safe = sessionPath dir safe' ↔ safe = safe' := by
  constructor
  · intro h
    have hchars := congrArg String.toList h
    simp only [sessionPath, String.toList_append] at hchars
    exact String.toList_inj.mp (List.append_cancel_left (List.append_cancel_right hchars))
  · exact congrArg _

/-- A session path is not one of the three files beside another. -/
theorem mem_sessionCandidates {dir safe safe' : String} :
    sessionPath dir safe' ∈ sessionCandidates (sessionPath dir safe) ↔ safe' = safe := by
  have hlast : ∀ s : String, (sessionPath dir safe').toList.getLast? ≠ s.toList.getLast? →
      sessionPath dir safe' ≠ s := fun s h heq => h (congrArg (·.toList.getLast?) heq)
  have hn : (sessionPath dir safe').toList.getLast? = some 'n' := by
    rw [sessionPath, String.toList_append, List.getLast?_append]
    rfl
  unfold sessionCandidates
  rw [List.mem_cons, sessionPath_inj]
  refine or_iff_left ?_
  simp only [List.mem_cons, List.not_mem_nil, or_false, not_or]
  refine ⟨hlast _ ?_, hlast _ ?_, hlast _ ?_⟩
  · rw [hn]
    simp [String.toList_append]
  · rw [hn]
    simp [String.toList_append]
  · rw [hn]
    simp [String.toList_append]

/-! ## The calls -/

/-- The table of the accounts, and the files on the disk. -/
structure SessionStore where
  accounts : AccountTable := {}
  files : List String := []
  deriving Repr

/-- A call of the service, or a change of the files that is not its own.  `delete` is given whether
the account has jobs that are not over, and the files that the system refuses to remove. -/
inductive ServiceCall where
  | add (phone : String)
  | delete (id : AccountId) (hasJobs : Bool) (refused : List String)
  | elsewhere (files : List String)
  deriving DecidableEq, Repr

namespace SessionStore

section Calls

variable (sessionsDir : String)

/-- `add`. -/
def add (s : SessionStore) (phone : String) : SessionStore :=
  let clean := Members.strip phone
  if matchesPhone clean then
    { s with
      accounts := s.accounts.create
        { phone := clean, sessionPath := sessionPath sessionsDir (digits clean) } }
  else s

/-- `delete`. -/
def delete (s : SessionStore) (id : AccountId) (hasJobs : Bool) (refused : List String) :
    SessionStore :=
  if hasJobs then s
  else
    { accounts := { s.accounts with rows := s.accounts.rows.filter fun r => r.id ≠ id }
      files :=
        match s.accounts.rows.find? fun r => r.id = id with
        | none => s.files
        | some account =>
            s.files.filter fun f => f ∉ sessionCandidates account.sessionPath ∨ f ∈ refused }

/-- One call; one that raises leaves everything as it is. -/
def step (s : SessionStore) : ServiceCall → Option SessionStore
  | .add phone => some (s.add sessionsDir phone)
  | .delete id hasJobs refused => some (s.delete id hasJobs refused)
  | .elsewhere files => some { s with files := files }

end Calls

variable {dir : String} {s s' : SessionStore} {call : ServiceCall} {calls : List ServiceCall}

/-- No two accounts share a session. -/
def SessionsDistinct (s : SessionStore) : Prop :=
  (s.accounts.rows.map AccountRow.sessionPath).Nodup

/-- No account has the digits of the new phone under another spelling. -/
def NewDigits (s : SessionStore) : ServiceCall → Prop
  | .add phone =>
      matchesPhone (Members.strip phone) = true →
        ∀ r ∈ s.accounts.rows, digits r.phone = digits (Members.strip phone) →
          r.phone = Members.strip phone
  | .delete _ _ _ | .elsewhere _ => True

/-- The session path of every account is that of its phone. -/
def PathsStored (dir : String) (s : SessionStore) : Prop :=
  ∀ r ∈ s.accounts.rows, r.sessionPath = sessionPath dir (digits r.phone)

theorem eq_of_digits_eq (hs : s.PathsStored dir) (hd : s.SessionsDistinct) {r r' : AccountRow}
    (hr : r ∈ s.accounts.rows) (hr' : r' ∈ s.accounts.rows)
    (h : digits r.phone = digits r'.phone) : r = r' := by
  refine List.inj_on_of_nodup_map hd hr hr' ?_
  rw [hs r hr, hs r' hr', h]

/-- **A phone is added** when it is one and is not stored. -/
theorem add_cases (dir : String) (s : SessionStore) (phone : String) :
    (s.add dir phone = s ∧
      (matchesPhone (Members.strip phone) = false ∨
        ∃ r ∈ s.accounts.rows, r.phone = Members.strip phone)) ∨
    (matchesPhone (Members.strip phone) = true ∧
      (∀ r ∈ s.accounts.rows, r.phone ≠ Members.strip phone) ∧
      ∃ row : AccountRow, row.phone = Members.strip phone ∧
        row.sessionPath = sessionPath dir (digits (Members.strip phone)) ∧
        (s.add dir phone).accounts.rows = s.accounts.rows ++ [row]) := by
  unfold add AccountTable.create AccountTable.hasPhone
  cases hmatch : matchesPhone (Members.strip phone) with
  | false => exact Or.inl ⟨if_neg (by simp [hmatch]), Or.inl rfl⟩
  | true =>
      by_cases hphone : ∃ r ∈ s.accounts.rows, r.phone = Members.strip phone
      · exact Or.inl ⟨by simp [hmatch, hphone], Or.inr hphone⟩
      · refine Or.inr ⟨rfl, fun r hr heq => hphone ⟨r, hr, heq⟩,
          AccountTable.newRow (s.accounts.sequence + 1)
            { phone := Members.strip phone
              sessionPath := sessionPath dir (digits (Members.strip phone)) }, rfl, rfl, ?_⟩
        simp [hmatch, hphone]

/-- **A call** keeps the session paths those of the phones. -/
theorem pathsStored_step (hs : s.PathsStored dir) (hstep : s.step dir call = some s') :
    s'.PathsStored dir := by
  cases call with
  | add phone =>
      obtain rfl := Option.some.inj hstep
      rcases add_cases dir s phone with ⟨heq, -⟩ | ⟨-, -, row, hphone, hpath, hrows⟩
      · rw [heq]
        exact hs
      · intro r hr
        rw [hrows] at hr
        rcases List.mem_append.mp hr with hr | hr
        · exact hs r hr
        · rw [List.mem_singleton.mp hr, hpath, hphone]
  | delete id hasJobs refused =>
      obtain rfl := Option.some.inj hstep
      unfold delete
      split_ifs with hjobs
      · exact hs
      · exact fun r hr => hs r (List.mem_filter.mp hr).1
  | elsewhere files =>
      obtain rfl := Option.some.inj hstep
      exact hs

/-- **A call** keeps the sessions apart exactly when it meets the condition. -/
theorem sessionsDistinct_step_iff (hs : s.PathsStored dir) (hd : s.SessionsDistinct)
    (hstep : s.step dir call = some s') : s'.SessionsDistinct ↔ s.NewDigits call := by
  cases call with
  | add phone =>
      obtain rfl := Option.some.inj hstep
      rcases add_cases dir s phone with
        ⟨heq, hfails⟩ | ⟨hmatch, hphones, row, -, hpath, hrows⟩
      · rw [heq]
        refine iff_of_true hd fun hmatch r hr hdigits => ?_
        rcases hfails with hfails | ⟨q, hq, hphone⟩
        · exact absurd (hmatch.symm.trans hfails) (by decide)
        · rw [eq_of_digits_eq hs hd hr hq (by rw [hdigits, hphone]), hphone]
      · unfold SessionsDistinct
        rw [hrows, List.map_append, List.map_singleton, List.nodup_append]
        constructor
        · rintro ⟨-, -, hapart⟩ - r hr hdigits
          refine absurd ?_ (hapart _ (List.mem_map_of_mem hr) _ (List.mem_singleton_self _))
          rw [hs r hr, hpath, hdigits]
        · intro hnew
          refine ⟨hd, List.nodup_singleton _, ?_⟩
          intro path hmem path' hmem' heq
          obtain ⟨r, hr, rfl⟩ := List.mem_map.mp hmem
          rw [List.mem_singleton.mp hmem', hs r hr, hpath, sessionPath_inj] at heq
          exact hphones r hr (hnew hmatch r hr heq)
  | delete id hasJobs refused =>
      obtain rfl := Option.some.inj hstep
      refine iff_of_true ?_ trivial
      unfold delete
      split_ifs with hjobs
      · exact hd
      · exact hd.sublist (List.filter_sublist.map _)
  | elsewhere files =>
      obtain rfl := Option.some.inj hstep
      exact iff_of_true hd trivial

/-- **A delete** leaves the session files of the other accounts, when no two share one. -/
theorem mem_files_delete (hs : s.PathsStored dir) (hd : s.SessionsDistinct) {id : AccountId}
    {hasJobs : Bool} {refused : List String} {r : AccountRow} (hr : r ∈ s.accounts.rows)
    (hid : r.id ≠ id) (hfile : r.sessionPath ∈ s.files) :
    r.sessionPath ∈ (s.delete id hasJobs refused).files := by
  unfold delete
  split_ifs with hjobs
  · exact hfile
  · cases hfind : s.accounts.rows.find? fun r => r.id = id with
    | none => exact hfile
    | some account =>
        have haccount := List.mem_of_find?_eq_some hfind
        have hisId : account.id = id := by simpa using List.find?_some hfind
        refine List.mem_filter.mpr ⟨hfile, decide_eq_true (Or.inl fun hmem => ?_)⟩
        rw [hs r hr, hs account haccount, mem_sessionCandidates] at hmem
        exact hid (eq_of_digits_eq hs hd hr haccount hmem ▸ hisId)

/-- **The sessions of the accounts over whole runs** of the service on an empty table, whatever
happens to the files between its calls.  They are pairwise distinct in every state if and only if
no phone is added while an account has its digits under another spelling; and then no `delete`
removes the session file of another account. -/
theorem session_paths_distinct_iff {files : List String} {t : SessionStore}
    (hrun : runLabels (step dir) { files := files } calls = some t) :
    ((∀ pre post u, calls = pre ++ post → runLabels (step dir) { files := files } pre = some u →
        u.SessionsDistinct) ↔ Along (step dir) NewDigits { files := files } calls) ∧
    (Along (step dir) NewDigits { files := files } calls →
      ∀ pre id hasJobs refused post u, calls = pre ++ .delete id hasJobs refused :: post →
        runLabels (step dir) { files := files } pre = some u →
        ∀ r ∈ u.accounts.rows, r.id ≠ id → r.sessionPath ∈ u.files →
          r.sessionPath ∈ (u.delete id hasJobs refused).files) := by
  have hpaths : ∀ pre u, runLabels (step dir) { files := files } pre = some u →
      u.PathsStored dir := by
    intro pre u hpre
    refine invariant_runLabels (I := PathsStored dir) (C := fun _ _ => True) ?_ ?_ ?_ hpre
    · exact fun u call u' hu _ hstep => pathsStored_step hu hstep
    · exact fun r hr => absurd hr (List.not_mem_nil (a := r))
    · exact along_of_forall_mem fun _ _ => trivial
  have hdistinct : Along (step dir) NewDigits { files := files } calls → ∀ pre post u,
      calls = pre ++ post → runLabels (step dir) { files := files } pre = some u →
      u.SessionsDistinct := by
    rintro halong pre post u rfl hpre
    refine (invariant_runLabels (I := fun u => u.PathsStored dir ∧ u.SessionsDistinct) ?_ ?_
      ((along_append hpre).mp halong).1 hpre).2
    · rintro u call u' ⟨hu, hd⟩ hC hstep
      exact ⟨pathsStored_step hu hstep, (sessionsDistinct_step_iff hu hd hstep).mpr hC⟩
    · exact ⟨fun r hr => absurd hr (List.not_mem_nil (a := r)), List.nodup_nil⟩
  refine ⟨⟨fun hall => ?_, hdistinct⟩, ?_⟩
  · by_contra hnot
    obtain ⟨pre, call, post, u, u', rfl, hpre, -, hfails, hstep⟩ := exists_first_failure hrun hnot
    refine hfails ((sessionsDistinct_step_iff (hpaths pre u hpre) (hall pre _ u rfl hpre)
      hstep).mp ?_)
    refine hall (pre ++ [call]) post u' (by simp) ?_
    exact runLabels_concat_eq_some.mpr ⟨u, hpre, hstep⟩
  · intro halong pre id hasJobs refused post u hcalls hpre r hr hid hfile
    exact mem_files_delete (hpaths pre u hpre) (hdistinct halong pre _ u hcalls hpre) hr hid hfile

/-- Two phones with other digits have sessions of their own. -/
theorem session_paths_distinct_two :
    ∃ u, runLabels (step "sessions") { files := [] }
      [.add "+84123456789", .add " 84123456780 "] = some u ∧ u.SessionsDistinct := by
  refine ⟨_, rfl, (@session_paths_distinct_iff "sessions" [.add "+84123456789",
    .add " 84123456780 "] [] _ rfl).1.mpr ?_ _ [] _ (List.append_nil _).symm rfl⟩
  refine ⟨fun _ r hr => absurd hr (List.not_mem_nil (a := r)), fun s' hs' => ⟨?_, ?_⟩⟩
  · obtain rfl := Option.some.inj hs'
    show matchesPhone _ = true → _
    decide +kernel
  · exact fun _ _ => trivial

/-- **A phone is added with its sign and without it**: both accounts have the session path of the
digits, and to delete the first one removes the session file of the second. -/
theorem same_digits_share_session :
    ∃ t t', runLabels (step "sessions") {}
        [.add "+84123456789", .add "84123456789", .elsewhere ["sessions/84123456789.session"]] =
          some t ∧
      t.accounts.rows.map AccountRow.id = [1, 2] ∧
      t.accounts.rows.map AccountRow.sessionPath =
        ["sessions/84123456789.session", "sessions/84123456789.session"] ∧
      ¬ t.SessionsDistinct ∧
      t.step "sessions" (.delete 1 false []) = some t' ∧
      t'.accounts.rows.map AccountRow.id = [2] ∧ t'.files = [] := by
  refine ⟨_, _, rfl, by decide +kernel, by decide +kernel, ?_, rfl, by decide +kernel,
    by decide +kernel⟩
  unfold SessionsDistinct
  decide +kernel

end SessionStore
end Accounts
end MigrationStudio
