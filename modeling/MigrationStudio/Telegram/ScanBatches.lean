import MigrationStudio.Telegram.ParticipantScanner

/-!
# The batches of a scan

Which batches the consumer of a scan makes of the pages depends on the pages only, not on when it
gets them: it drops the participants that it has seen, and a batch is over with the page that makes
it long enough, or with the pages.

* `Collected.add`, `collect`: the consumer over the pages, without its writes.
* `batchEnds`: the offsets behind the batches, which an ingest each brings to the checkpoint.
* `envelopes`: the items that the producer makes of the pages.
-/

namespace MigrationStudio
namespace Telegram
namespace ParticipantScanner

open Foundations MigrationStudio.Core Members

/-- What the consumer has made of some pages: whom it has seen, the batch in memory with the offset
behind it, and the offsets behind the batches that were long enough. -/
structure Collected where
  seen : List ℤ
  batch : List Members.Member
  offset : ℕ
  ends : List ℕ

namespace Collected

/-- The next page. -/
def add (k : Collected) (page : List Members.Member) : Collected :=
  let (seen, batch) := page.foldl addMember (k.seen, k.batch)
  if SCAN_DB_BATCH_SIZE ≤ batch.length then
    ⟨seen, [], k.offset + page.length, k.ends ++ [k.offset + page.length]⟩
  else ⟨seen, batch, k.offset + page.length, k.ends⟩

variable {k : Collected} {page : List Members.Member} {pages : List (List Members.Member)}

theorem add_of_long
    (h : SCAN_DB_BATCH_SIZE ≤ (page.foldl addMember (k.seen, k.batch)).2.length) :
    k.add page = ⟨(page.foldl addMember (k.seen, k.batch)).1, [], k.offset + page.length,
      k.ends ++ [k.offset + page.length]⟩ := if_pos h

theorem add_of_short
    (h : ¬ SCAN_DB_BATCH_SIZE ≤ (page.foldl addMember (k.seen, k.batch)).2.length) :
    k.add page = ⟨(page.foldl addMember (k.seen, k.batch)).1,
      (page.foldl addMember (k.seen, k.batch)).2, k.offset + page.length, k.ends⟩ := if_neg h

@[simp] theorem add_seen : (k.add page).seen = (page.foldl addMember (k.seen, k.batch)).1 := by
  by_cases hlong : SCAN_DB_BATCH_SIZE ≤ (page.foldl addMember (k.seen, k.batch)).2.length
  · rw [add_of_long hlong]
  · rw [add_of_short hlong]

@[simp] theorem add_offset : (k.add page).offset = k.offset + page.length := by
  by_cases hlong : SCAN_DB_BATCH_SIZE ≤ (page.foldl addMember (k.seen, k.batch)).2.length
  · rw [add_of_long hlong]
  · rw [add_of_short hlong]

theorem ends_add (k : Collected) (page : List Members.Member) : k.ends <+: (k.add page).ends := by
  by_cases hlong : SCAN_DB_BATCH_SIZE ≤ (page.foldl addMember (k.seen, k.batch)).2.length
  · rw [add_of_long hlong]
    exact List.prefix_append _ _
  · rw [add_of_short hlong]

theorem ends_foldl_add (pages : List (List Members.Member)) (k : Collected) :
    k.ends <+: (pages.foldl add k).ends := by
  induction pages generalizing k with
  | nil => exact List.prefix_rfl
  | cons page pages ih => exact (k.ends_add page).trans (ih (k.add page))

/-- The batches end one behind the other, and in front of the participants of the batch in
memory. -/
structure Ordered (k : Collected) : Prop where
  ends : (0 :: k.ends).Pairwise (· < ·)
  le : ∀ e ∈ 0 :: k.ends, e ≤ k.offset
  lt : k.batch ≠ [] → ∀ e ∈ 0 :: k.ends, e < k.offset

theorem foldl_addMember_of_nil {st : List ℤ × List Members.Member} (hst : st.2 = [])
    (h : (page.foldl addMember st).2 ≠ []) : page ≠ [] := by
  rintro rfl
  exact h hst

theorem pairwise_concat {e : ℕ} {es : List ℕ} (h : (0 :: es).Pairwise (· < ·))
    (hlt : ∀ a ∈ 0 :: es, a < e) : (0 :: (es ++ [e])).Pairwise (· < ·) := by
  rw [← List.cons_append, List.pairwise_append]
  refine ⟨h, List.pairwise_singleton _ _, fun a ha b hb => ?_⟩
  rw [List.mem_singleton.mp hb]
  exact hlt a ha

theorem Ordered.add (h : k.Ordered) (page : List Members.Member) : (k.add page).Ordered := by
  have hle : ∀ e ∈ 0 :: k.ends, e ≤ k.offset + page.length := fun e he =>
    (h.le e he).trans (Nat.le_add_right ..)
  -- somebody is in the new batch: he was in the old one, or the page is not empty
  have hlt : (page.foldl addMember (k.seen, k.batch)).2 ≠ [] →
      ∀ e ∈ 0 :: k.ends, e < k.offset + page.length := by
    intro hne e he
    by_cases hbatch : k.batch = []
    · have hpos := List.length_pos_iff.mpr (foldl_addMember_of_nil hbatch hne)
      have := h.le e he
      omega
    · exact (h.lt hbatch e he).trans_le (Nat.le_add_right ..)
  by_cases hlong : SCAN_DB_BATCH_SIZE ≤ (page.foldl addMember (k.seen, k.batch)).2.length
  · have hne : (page.foldl addMember (k.seen, k.batch)).2 ≠ [] := by
      intro hnil
      rw [hnil] at hlong
      exact absurd hlong (by decide)
    rw [add_of_long hlong]
    refine ⟨pairwise_concat h.ends (hlt hne), fun e he => ?_, fun hnot => absurd rfl hnot⟩
    rw [← List.cons_append, List.mem_append, List.mem_singleton] at he
    rcases he with he | rfl
    · exact hle e he
    · exact Nat.le_refl _
  · rw [add_of_short hlong]
    exact ⟨h.ends, hle, hlt⟩

end Collected

/-- The consumer over the pages. -/
def collect (pages : List (List Members.Member)) : Collected :=
  pages.foldl Collected.add ⟨[], [], 0, []⟩

/-- The offsets behind the batches that the pages make, the last one with what is left over when the
sentinel comes. -/
def batchEnds (pages : List (List Members.Member)) : List ℕ :=
  if (collect pages).batch = [] then (collect pages).ends
  else (collect pages).ends ++ [(collect pages).offset]

variable {pages : List (List Members.Member)} {page : List Members.Member} {n k : ℕ}

theorem collect_take_succ (hpage : pages[n]? = some page) :
    collect (pages.take (n + 1)) = (collect (pages.take n)).add page := by
  unfold collect
  rw [List.take_add_one, hpage, Option.toList_some, List.foldl_append]
  rfl

theorem offset_collect (pages : List (List Members.Member)) :
    (collect pages).offset = pages.flatten.length := by
  induction pages using List.reverseRecOn with
  | nil => rfl
  | append_singleton pages page ih =>
      unfold collect at ih ⊢
      rw [List.foldl_append, List.foldl_cons, List.foldl_nil, Collected.add_offset, ih]
      simp

theorem ordered_collect (pages : List (List Members.Member)) : (collect pages).Ordered := by
  induction pages using List.reverseRecOn with
  | nil => exact ⟨List.pairwise_singleton _ _, by simp [collect], fun h => absurd rfl h⟩
  | append_singleton pages page ih =>
      unfold collect at ih ⊢
      rw [List.foldl_append]
      exact ih.add page

theorem ends_prefix_batchEnds (pages : List (List Members.Member)) :
    (collect pages).ends <+: batchEnds pages := by
  unfold batchEnds
  split_ifs
  · exact List.prefix_rfl
  · exact List.prefix_append _ _

/-- The batches of some of the pages are among those of all. -/
theorem ends_take_prefix (pages : List (List Members.Member)) (n : ℕ) :
    (collect (pages.take n)).ends <+: batchEnds pages := by
  refine List.IsPrefix.trans ?_ (ends_prefix_batchEnds pages)
  conv_rhs => rw [← List.take_append_drop n pages, collect, List.foldl_append]
  exact Collected.ends_foldl_add _ _

/-- **The offsets behind the batches** increase, and none is behind the pages. -/
theorem ordered_batchEnds (pages : List (List Members.Member)) :
    (0 :: batchEnds pages).Pairwise (· < ·) ∧
      ∀ e ∈ 0 :: batchEnds pages, e ≤ pages.flatten.length := by
  have h := ordered_collect pages
  rw [← offset_collect]
  unfold batchEnds
  split_ifs with hbatch
  · exact ⟨h.ends, h.le⟩
  · refine ⟨Collected.pairwise_concat h.ends (h.lt hbatch), fun e he => ?_⟩
    rw [← List.cons_append, List.mem_append, List.mem_singleton] at he
    rcases he with he | rfl
    · exact h.le e he
    · exact Nat.le_refl _

/-! ## The items of the queue -/

/-- The items that the producer makes of the first `k` pages. -/
def envelopes (pages : List (List Members.Member)) (k : ℕ) : List QueueItem :=
  (pages.take k).mapIdx fun i page => .page page (pages.take (i + 1)).flatten.length

theorem length_envelopes (h : k ≤ pages.length) : (envelopes pages k).length = k := by
  unfold envelopes
  rw [List.length_mapIdx, List.length_take, Nat.min_eq_left h]

theorem envelopes_succ (hpage : pages[k]? = some page) :
    envelopes pages (k + 1) =
      envelopes pages k ++ [.page page (pages.take (k + 1)).flatten.length] := by
  have hlt := (List.getElem?_eq_some_iff.mp hpage).1
  have htake : pages.take (k + 1) = pages.take k ++ [page] := by
    rw [List.take_add_one, hpage, Option.toList_some]
  unfold envelopes
  conv_lhs => rw [htake, List.mapIdx_concat, List.length_take, Nat.min_eq_left hlt.le]

/-- The next item is the next page. -/
theorem drop_envelopes (hk : k ≤ pages.length) (hn : n < k) :
    ∃ page, pages[n]? = some page ∧ (envelopes pages k).drop n =
      .page page (pages.take (n + 1)).flatten.length :: (envelopes pages k).drop (n + 1) := by
  have hlt : n < (envelopes pages k).length := by rwa [length_envelopes hk]
  refine ⟨pages.get ⟨n, hn.trans_le hk⟩, List.getElem?_eq_getElem _, ?_⟩
  rw [List.drop_eq_getElem_cons hlt]
  simp [envelopes]

end ParticipantScanner
end Telegram
end MigrationStudio
