import Mathlib.Data.List.TakeWhile

/-!
# Patterns that are read with backtracking

A regular expression is read by trying: of two alternatives the first is tried first, a repetition
takes as much as it can and gives back one letter after the other, and what is tried is the first
place of the text at which something fits.  `Pattern` are the expressions with one group.

* `Pattern.ways`: the ways to read the beginning of a text, in the order in which they are tried.
* `Pattern.Reads`: what a pattern stands for; `mem_ways`: exactly these ways are tried.
* `Pattern.search`: the first way at the first place; `search_eq_some_iff`.
* `ways_seq_of_unique`: a part that can be read in one way only is read and forgotten.
* `head?_ways_group_many`: a repetition takes all that it can when nothing is behind it.
-/

namespace MigrationStudio
namespace Foundations

variable {α : Type*}

/-- A regular expression: a word, a repetition of letters (one at least), an alternative, a
sequence, the group. -/
inductive Pattern (α : Type*) where
  | lit (w : List α)
  | many (p : α → Bool)
  | alt (a b : Pattern α)
  | seq (a b : Pattern α)
  | group (a : Pattern α)

/-- What has been read, the group in it, and what is left. -/
structure Match (α : Type*) where
  taken : List α
  group : Option (List α)
  rest : List α

/-- The beginnings of a text that consist of such letters, the longest first. -/
def runs (p : α → Bool) : List α → List (List α × List α)
  | [] => []
  | c :: s => if p c then ((runs p s).map fun r => (c :: r.1, r.2)) ++ [([c], s)] else []

namespace Pattern

variable [DecidableEq α]

/-- The ways to read the beginning of a text, in the order in which they are tried. -/
def ways : Pattern α → List α → List (Match α)
  | .lit w, s => if w <+: s then [⟨w, none, s.drop w.length⟩] else []
  | .many p, s => (runs p s).map fun r => ⟨r.1, none, r.2⟩
  | .alt a b, s => a.ways s ++ b.ways s
  | .seq a b, s =>
      (a.ways s).flatMap fun m =>
        (b.ways m.rest).map fun n => ⟨m.taken ++ n.taken, n.group.or m.group, n.rest⟩
  | .group a, s => (a.ways s).map fun m => { m with group := some m.taken }

/-- `re.search`: what stands in front of the first place where something fits, and how it is read
there. -/
def search (a : Pattern α) : List α → Option (List α × Match α)
  | [] => (a.ways []).head?.map fun m => ([], m)
  | c :: s =>
      match (a.ways (c :: s)).head? with
      | some m => some ([], m)
      | none => (a.search s).map fun found => (c :: found.1, found.2)

/-! ## What is tried -/

omit [DecidableEq α] in
/-- The pattern stands for the text, with this group. -/
def Reads : Pattern α → List α → Option (List α) → Prop
  | .lit w, t, g => t = w ∧ g = none
  | .many p, t, g => t ≠ [] ∧ (∀ c ∈ t, p c = true) ∧ g = none
  | .alt a b, t, g => a.Reads t g ∨ b.Reads t g
  | .seq a b, t, g =>
      ∃ t₁ g₁ t₂ g₂, t = t₁ ++ t₂ ∧ g = g₂.or g₁ ∧ a.Reads t₁ g₁ ∧ b.Reads t₂ g₂
  | .group a, t, g => g = some t ∧ ∃ g', a.Reads t g'

end Pattern

theorem mem_runs {p : α → Bool} {s t r : List α} :
    (t, r) ∈ runs p s ↔ s = t ++ r ∧ t ≠ [] ∧ ∀ c ∈ t, p c = true := by
  induction s generalizing t with
  | nil =>
    refine iff_of_false List.not_mem_nil ?_
    rintro ⟨hs, hne, -⟩
    exact hne (List.append_eq_nil_iff.mp hs.symm).1
  | cons c s ih =>
    rw [runs]
    constructor
    · intro h
      split_ifs at h with hc
      · rcases List.mem_append.mp h with h | h
        · obtain ⟨⟨t', r'⟩, hmem, heq⟩ := List.mem_map.mp h
          obtain ⟨rfl, rfl⟩ := Prod.mk.inj heq
          obtain ⟨rfl, -, hall⟩ := ih.mp hmem
          exact ⟨rfl, List.cons_ne_nil _ _, List.forall_mem_cons.mpr ⟨hc, hall⟩⟩
        · obtain ⟨rfl, rfl⟩ := Prod.mk.inj (List.mem_singleton.mp h)
          exact ⟨rfl, List.cons_ne_nil _ _, List.forall_mem_cons.mpr ⟨hc, nofun⟩⟩
      · exact absurd h List.not_mem_nil
    · rintro ⟨hs, hne, hall⟩
      cases t with
      | nil => exact absurd rfl hne
      | cons d t =>
        obtain ⟨rfl, rfl⟩ := List.cons.inj hs
        rw [if_pos (hall _ (List.mem_cons_self ..)), List.mem_append]
        cases t with
        | nil => exact .inr (List.mem_singleton.mpr rfl)
        | cons e t =>
          refine .inl (List.mem_map.mpr ⟨(e :: t, r), ih.mpr ⟨rfl, List.cons_ne_nil _ _, ?_⟩, rfl⟩)
          exact fun d hd => hall d (List.mem_cons_of_mem _ hd)

/-- The longest comes first. -/
theorem head?_runs (p : α → Bool) (s : List α) :
    (runs p s).head? =
      if s.takeWhile p = [] then none else some (s.takeWhile p, s.dropWhile p) := by
  induction s with
  | nil => rfl
  | cons c s ih =>
    rw [runs, List.takeWhile_cons, List.dropWhile_cons]
    by_cases hc : p c = true
    · simp only [hc, if_true, reduceCtorEq, if_false]
      rw [List.head?_append, List.head?_map, ih]
      split_ifs with hrest
      · have hsplit := @List.takeWhile_append_dropWhile _ p s
        rw [hrest, List.nil_append] at hsplit
        rw [hrest, hsplit]
        rfl
      · rfl
    · simp only [hc, if_false, if_true, List.head?_nil, Bool.false_eq_true]

namespace Pattern

variable [DecidableEq α] {a b : Pattern α} {s : List α} {m : Match α}

/-- **Exactly what the pattern stands for is tried.** -/
theorem mem_ways : m ∈ a.ways s ↔ s = m.taken ++ m.rest ∧ a.Reads m.taken m.group := by
  induction a generalizing s m with
  | lit w =>
    rw [ways, Reads]
    constructor
    · intro h
      split_ifs at h with hprefix
      · obtain rfl := List.mem_singleton.mp h
        exact ⟨(List.prefix_iff_eq_append.mp hprefix).symm, rfl, rfl⟩
      · exact absurd h List.not_mem_nil
    · rintro ⟨rfl, htaken, hgroup⟩
      rw [if_pos (htaken ▸ List.prefix_append _ _), List.mem_singleton]
      obtain ⟨taken, group, rest⟩ := m
      obtain rfl : taken = w := htaken
      obtain rfl : group = none := hgroup
      rw [List.drop_left]
  | many p =>
    rw [ways, Reads, List.mem_map]
    constructor
    · rintro ⟨⟨t, r⟩, hmem, rfl⟩
      obtain ⟨hs, hne, hall⟩ := mem_runs.mp hmem
      exact ⟨hs, hne, hall, rfl⟩
    · rintro ⟨hs, hne, hall, hgroup⟩
      refine ⟨(m.taken, m.rest), mem_runs.mpr ⟨hs, hne, hall⟩, ?_⟩
      rw [← hgroup]
  | alt a b iha ihb =>
    rw [ways, List.mem_append, iha, ihb, Reads, and_or_left]
  | seq a b iha ihb =>
    rw [ways, List.mem_flatMap, Reads]
    constructor
    · rintro ⟨m₁, hm₁, hmem⟩
      obtain ⟨m₂, hm₂, rfl⟩ := List.mem_map.mp hmem
      obtain ⟨hs, hreads⟩ := iha.mp hm₁
      obtain ⟨hrest, hreads'⟩ := ihb.mp hm₂
      exact ⟨by rw [hs, hrest, List.append_assoc], _, _, _, _, rfl, rfl, hreads, hreads'⟩
    · rintro ⟨hs, t₁, g₁, t₂, g₂, ht, hg, hreads, hreads'⟩
      refine ⟨⟨t₁, g₁, t₂ ++ m.rest⟩, iha.mpr ⟨?_, hreads⟩, List.mem_map.mpr
        ⟨⟨t₂, g₂, m.rest⟩, ihb.mpr ⟨rfl, hreads'⟩, ?_⟩⟩
      · rw [hs, ht, List.append_assoc]
      · rw [← ht, ← hg]
  | group a ih =>
    rw [ways, List.mem_map, Reads]
    constructor
    · rintro ⟨n, hn, rfl⟩
      obtain ⟨hs, hreads⟩ := ih.mp hn
      exact ⟨hs, rfl, n.group, hreads⟩
    · rintro ⟨hs, hgroup, g, hreads⟩
      refine ⟨⟨m.taken, g, m.rest⟩, ih.mpr ⟨hs, hreads⟩, ?_⟩
      rw [← hgroup]

/-- A part that can be read in one way only is read and forgotten. -/
theorem ways_seq_of_unique (h : a.ways s = [m]) :
    (Pattern.seq a b).ways s =
      (b.ways m.rest).map fun n => ⟨m.taken ++ n.taken, n.group.or m.group, n.rest⟩ := by
  rw [ways, h, List.flatMap_singleton]

/-- **A repetition takes all that it can** when nothing is behind it. -/
theorem head?_ways_group_many (p : α → Bool) (s : List α) :
    ((Pattern.group (.many p)).ways s).head? =
      if s.takeWhile p = [] then none
      else some ⟨s.takeWhile p, some (s.takeWhile p), s.dropWhile p⟩ := by
  rw [ways, ways, List.head?_map, List.head?_map, head?_runs]
  split_ifs
  · rfl
  · rfl

/-! ## The first place -/

/-- **The first place where something fits.** -/
theorem search_eq_some_iff {before : List α} :
    a.search s = some (before, m) ↔
      ∃ after, s = before ++ after ∧ (a.ways after).head? = some m ∧
        ∀ before' after', s = before' ++ after' → a.ways after' ≠ [] →
          before.length ≤ before'.length := by
  induction s generalizing before with
  | nil =>
    rw [search, Option.map_eq_some_iff]
    constructor
    · rintro ⟨n, hn, heq⟩
      obtain ⟨rfl, rfl⟩ := Prod.mk.inj heq
      exact ⟨[], rfl, hn, fun _ _ _ _ => Nat.zero_le _⟩
    · rintro ⟨after, hs, hm, -⟩
      obtain ⟨rfl, rfl⟩ := List.append_eq_nil_iff.mp hs.symm
      exact ⟨m, hm, rfl⟩
  | cons c s ih =>
    rw [search]
    cases hhead : (a.ways (c :: s)).head? with
    | some n =>
      constructor
      · intro h
        obtain ⟨rfl, rfl⟩ := Prod.mk.inj (Option.some.inj h)
        exact ⟨c :: s, rfl, hhead, fun _ _ _ _ => Nat.zero_le _⟩
      · rintro ⟨after, hs, hm, hfirst⟩
        have hne : a.ways (c :: s) ≠ [] := by
          intro hnil
          rw [hnil] at hhead
          cases hhead
        obtain rfl := List.length_eq_zero_iff.mp (Nat.le_zero.mp (hfirst [] (c :: s) rfl hne))
        obtain rfl : c :: s = after := hs
        rw [hhead] at hm
        rw [Option.some.inj hm]
    | none =>
      have hnil : a.ways (c :: s) = [] := List.head?_eq_none_iff.mp hhead
      show (a.search s).map _ = _ ↔ _
      rw [Option.map_eq_some_iff]
      constructor
      · rintro ⟨⟨before, n⟩, hfound, heq⟩
        obtain ⟨rfl, rfl⟩ := Prod.mk.inj heq
        obtain ⟨after, rfl, hm, hfirst⟩ := ih.mp hfound
        refine ⟨after, rfl, hm, fun before' after' hs hne => ?_⟩
        cases before' with
        | nil =>
          obtain rfl : c :: (before ++ after) = after' := hs
          exact absurd hnil hne
        | cons d before' =>
          obtain ⟨-, hs⟩ := List.cons.inj hs
          exact Nat.succ_le_succ (hfirst before' after' hs hne)
      · rintro ⟨after, hs, hm, hfirst⟩
        cases before with
        | nil =>
          obtain rfl : c :: s = after := hs
          rw [hnil] at hm
          cases hm
        | cons d before =>
          obtain ⟨rfl, rfl⟩ := List.cons.inj hs
          refine ⟨(before, m), ih.mpr ⟨after, rfl, hm, fun before' after' hs hne => ?_⟩, rfl⟩
          have hle := hfirst (c :: before') after' (congrArg (c :: ·) hs) hne
          exact Nat.le_of_succ_le_succ hle

end Pattern

end Foundations
end MigrationStudio
