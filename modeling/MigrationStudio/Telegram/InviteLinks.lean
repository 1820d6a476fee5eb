import Mathlib.Data.List.DropRight
import MigrationStudio.Foundations.CodePoints
import MigrationStudio.Foundations.Patterns
import MigrationStudio.Members.Repository

/-!
# `groups/service.py`: the hash of an invite

A user gives a group as a name, as a public link or as an invite, in whatever text surrounds it.
`invite_hash` decides which: what it finds goes to Telegram as the hash of an invite, by
`resolve_group` and by `join_group`, and everything else is looked up as a name.

* `inviteLink`: the regular expression of `invite_hash`, and `inviteHash`.
* `LinkAt`: a text begins with an invite link, and with which hash.
* `inviteHash_eq_some_iff`: the hash is that of the first link of the reference, whole, wherever it
  stands; `inviteHash_eq_none_iff`: when there is none.
-/

namespace MigrationStudio
namespace Telegram
namespace InviteLinks

open Foundations Members

/-- The hosts of an invite link. -/
def hosts : List (List Char) := ["t.me/".toList, "telegram.me/".toList]

/-- What stands between the host and the hash. -/
def marks : List (List Char) := ["joinchat/".toList, "+".toList]

/-- `[A-Za-z0-9_-]`. -/
def isHashChar (c : Char) : Bool := c.isAlphanum || c = '_' || c = '-'

/-- `(?:t\.me/|telegram\.me/)`. -/
def hostPattern : Pattern Char := .alt (.lit "t.me/".toList) (.lit "telegram.me/".toList)

/-- `(?:joinchat/|\+)`. -/
def markPattern : Pattern Char := .alt (.lit "joinchat/".toList) (.lit "+".toList)

/-- The regular expression of `invite_hash`. -/
def inviteLink : Pattern Char :=
  .seq hostPattern (.seq markPattern (.group (.many isHashChar)))

/-- The group of the match in a text. -/
def hashIn (text : List Char) : Option (List Char) :=
  (inviteLink.search text).bind fun found => found.2.group

/-- `invite_hash`. -/
def inviteHash (reference : String) : Option String :=
  (hashIn (strip reference).toList).map String.ofList

/-! ## A link at the beginning of a text -/

/-- The text begins with an invite link that has this hash: behind it no letter of a hash stands. -/
def LinkAt (text hash : List Char) : Prop :=
  ∃ host ∈ hosts, ∃ mark ∈ marks, ∃ rest, text = host ++ (mark ++ (hash ++ rest)) ∧ hash ≠ [] ∧
    (∀ c ∈ hash, isHashChar c = true) ∧ ∀ c ∈ rest.head?, isHashChar c = false

variable {s t h : List Char} {host mark : List Char}

/-- A host is read in one way. -/
theorem ways_hostPattern (hhost : host ∈ hosts) (s : List Char) :
    hostPattern.ways (host ++ s) = [⟨host, none, s⟩] := by
  simp only [hosts, List.mem_cons, List.not_mem_nil, or_false] at hhost
  rcases hhost with rfl | rfl
  · simp [hostPattern, Pattern.ways]
  · simp [hostPattern, Pattern.ways]

theorem ways_markPattern (hmark : mark ∈ marks) (s : List Char) :
    markPattern.ways (mark ++ s) = [⟨mark, none, s⟩] := by
  simp only [marks, List.mem_cons, List.not_mem_nil, or_false] at hmark
  rcases hmark with rfl | rfl
  · simp [markPattern, Pattern.ways]
  · simp [markPattern, Pattern.ways]

/-- Behind the host and the mark, the hash is read. -/
theorem head?_ways_inviteLink (hhost : host ∈ hosts) (hmark : mark ∈ marks) (s : List Char) :
    (inviteLink.ways (host ++ (mark ++ s))).head? =
      if s.takeWhile isHashChar = [] then none
      else some ⟨host ++ (mark ++ s.takeWhile isHashChar), some (s.takeWhile isHashChar),
        s.dropWhile isHashChar⟩ := by
  rw [inviteLink, Pattern.ways_seq_of_unique (ways_hostPattern hhost _),
    Pattern.ways_seq_of_unique (ways_markPattern hmark s), List.head?_map, List.head?_map,
    Pattern.head?_ways_group_many]
  split_ifs
  · rfl
  · rfl

/-- What can be read at the beginning of a text is a host, a mark and a hash. -/
theorem exists_of_ways_ne_nil (h : inviteLink.ways s ≠ []) :
    ∃ host ∈ hosts, ∃ mark ∈ marks, ∃ t, s = host ++ (mark ++ t) := by
  obtain ⟨m, hm⟩ := List.exists_mem_of_ne_nil _ h
  obtain ⟨hs, host, _, t₂, _, htaken, -, hhost, mark, _, t₃, _, rfl, -, hmark, -⟩ :=
    Pattern.mem_ways.mp hm
  refine ⟨host, ?_, mark, ?_, t₃ ++ m.rest, ?_⟩
  · rcases hhost with ⟨rfl, -⟩ | ⟨rfl, -⟩
    · exact List.mem_cons_self ..
    · exact List.mem_cons_of_mem _ (List.mem_cons_self ..)
  · rcases hmark with ⟨rfl, -⟩ | ⟨rfl, -⟩
    · exact List.mem_cons_self ..
    · exact List.mem_cons_of_mem _ (List.mem_cons_self ..)
  · rw [hs, htaken, List.append_assoc, List.append_assoc]

/-- The hash that is read at the beginning of a text. -/
def linkHash (text : List Char) : Option (List Char) :=
  (inviteLink.ways text).head?.bind Match.group

/-- **What is read at the beginning of a text** is the whole hash of the link there. -/
theorem linkHash_eq_some_iff : linkHash s = some h ↔ LinkAt s h := by
  constructor
  · intro hread
    have hne : inviteLink.ways s ≠ [] := by
      intro hnil
      rw [linkHash, hnil] at hread
      cases hread
    obtain ⟨host, hhost, mark, hmark, t, rfl⟩ := exists_of_ways_ne_nil hne
    rw [linkHash, head?_ways_inviteLink hhost hmark] at hread
    split_ifs at hread with hnil
    · cases hread
    · obtain rfl := Option.some.inj hread
      refine ⟨host, hhost, mark, hmark, t.dropWhile isHashChar, ?_, hnil, fun c hc =>
        List.mem_takeWhile_imp hc, fun c hc => ?_⟩
      · rw [List.takeWhile_append_dropWhile]
      · have hhead := List.head?_dropWhile_not isHashChar t
        rw [Option.mem_def.mp hc] at hhead
        exact hhead
  · rintro ⟨host, hhost, mark, hmark, rest, rfl, hne, hall, hend⟩
    have hrest : rest.takeWhile isHashChar = [] := by
      cases rest with
      | nil => rfl
      | cons c rest =>
        rw [List.takeWhile_cons, hend c rfl]
        rfl
    have htake : (h ++ rest).takeWhile isHashChar = h := by
      rw [List.takeWhile_append_of_pos hall, hrest, List.append_nil]
    rw [linkHash, head?_ways_inviteLink hhost hmark, htake, if_neg hne]
    rfl

theorem linkHash_eq_none_iff : linkHash s = none ↔ inviteLink.ways s = [] := by
  constructor
  · intro hnone
    by_contra hne
    obtain ⟨host, hhost, mark, hmark, t, rfl⟩ := exists_of_ways_ne_nil hne
    have hhead := head?_ways_inviteLink hhost hmark t
    rw [linkHash, hhead] at hnone
    split_ifs at hnone hhead with hnil
    · exact hne (List.head?_eq_none_iff.mp hhead)
    · cases hnone
  · intro hnil
    rw [linkHash, hnil]
    rfl

/-! ## The first link of a text -/

theorem hashIn_eq_some_iff :
    hashIn s = some h ↔
      ∃ before after, s = before ++ after ∧ LinkAt after h ∧
        ∀ before' after' h', s = before' ++ after' → LinkAt after' h' →
          before.length ≤ before'.length := by
  have hfits : ∀ text, inviteLink.ways text ≠ [] ↔ ∃ h', LinkAt text h' := by
    intro text
    rw [Ne, ← linkHash_eq_none_iff, ← Ne, Option.ne_none_iff_exists']
    exact exists_congr fun h' => linkHash_eq_some_iff
  rw [hashIn, Option.bind_eq_some_iff]
  constructor
  · rintro ⟨⟨before, m⟩, hfound, hgroup⟩
    obtain ⟨after, hs, hhead, hfirst⟩ := Pattern.search_eq_some_iff.mp hfound
    refine ⟨before, after, hs, linkHash_eq_some_iff.mp ?_, fun before' after' h' hs' hlink =>
      hfirst before' after' hs' ((hfits after').mpr ⟨h', hlink⟩)⟩
    rw [linkHash, hhead]
    exact hgroup
  · rintro ⟨before, after, hs, hlink, hfirst⟩
    obtain ⟨m, hhead, hgroup⟩ := Option.bind_eq_some_iff.mp (linkHash_eq_some_iff.mpr hlink)
    refine ⟨(before, m), Pattern.search_eq_some_iff.mpr ⟨after, hs, hhead, ?_⟩, hgroup⟩
    intro before' after' hs' hne
    obtain ⟨h', hlink'⟩ := (hfits after').mp hne
    exact hfirst before' after' h' hs' hlink'

/-- The search goes from letter to letter. -/
theorem hashIn_cons (c : Char) (s : List Char) :
    hashIn (c :: s) = (linkHash (c :: s)).or (hashIn s) := by
  cases hlink : linkHash (c :: s) with
  | some h =>
    refine hashIn_eq_some_iff.mpr ⟨[], c :: s, rfl, linkHash_eq_some_iff.mp hlink, ?_⟩
    exact fun _ _ _ _ _ => Nat.zero_le _
  | none =>
    rw [hashIn, Pattern.search, linkHash_eq_none_iff.mp hlink]
    show ((inviteLink.search s).map _).bind _ = _
    rw [Option.bind_map]
    rfl

theorem hashIn_nil : hashIn [] = none := rfl

/-! ## What surrounds a reference -/

/-- The letters of a hash are between the hyphen and the last of the small letters. -/
theorem toNat_of_isHashChar {c : Char} (h : isHashChar c = true) :
    45 ≤ c.toNat ∧ c.toNat ≤ 122 := by
  have hcases : c.isAlphanum = true ∨ c = '_' ∨ c = '-' := by
    simpa only [isHashChar, Bool.or_eq_true, decide_eq_true_eq, or_assoc] using h
  rcases hcases with halnum | rfl | rfl
  · rcases Bool.or_eq_true_iff.mp halnum with hletter | hdigit
    · have hbounds := toNat_of_isAlpha hletter
      omega
    · have hbounds : 48 ≤ c.toNat ∧ c.toNat ≤ 57 := Char.isDigit_iff_toNat.mp hdigit
      omega
  · decide
  · decide

theorem isSpace_of_isHashChar {c : Char} (h : isHashChar c = true) : isSpace c = false := by
  obtain ⟨hge, hle⟩ := toNat_of_isHashChar h
  simp only [isSpace, Bool.or_eq_false_iff, Bool.and_eq_false_iff, decide_eq_false_iff_not]
  omega

/-- No letter of a link is whitespace. -/
theorem isSpace_of_mem_link {hash : List Char} (hhost : host ∈ hosts) (hmark : mark ∈ marks)
    (hhash : ∀ c ∈ hash, isHashChar c = true) {c : Char} (hc : c ∈ host ++ (mark ++ hash)) :
    isSpace c = false := by
  have hwords : ∀ w ∈ hosts ++ marks, ∀ c ∈ w, isSpace c = false := by
    have hall : ((hosts ++ marks).all fun w => w.all fun c => !isSpace c) = true := by decide
    simpa only [List.all_eq_true, Bool.not_eq_true'] using hall
  rcases List.mem_append.mp hc with hc | hc
  · exact hwords host (List.mem_append_left _ hhost) c hc
  · rcases List.mem_append.mp hc with hc | hc
    · exact hwords mark (List.mem_append_right _ hmark) c hc
    · exact isSpace_of_isHashChar (hhash c hc)

/-- Whitespace behind a text changes nothing. -/
theorem linkAt_append_iff {spaces : List Char} (hspaces : ∀ c ∈ spaces, isSpace c = true) :
    LinkAt (s ++ spaces) h ↔ LinkAt s h := by
  constructor
  · rintro ⟨host, hhost, mark, hmark, rest, hs, hne, hall, hend⟩
    have hlink : s ++ spaces = host ++ (mark ++ h) ++ rest := by
      rw [hs]
      simp only [List.append_assoc]
    rcases List.append_eq_append_iff.mp hlink with ⟨t, ht, hspaces'⟩ | ⟨t, rfl, hrest⟩
    · -- the link would end in the whitespace behind the text
      have hnil : t = [] := by
        refine List.eq_nil_iff_forall_not_mem.mpr fun c hc => ?_
        have hspace := hspaces c (hspaces' ▸ List.mem_append_left _ hc)
        rw [isSpace_of_mem_link hhost hmark hall (ht ▸ List.mem_append_right _ hc)] at hspace
        cases hspace
      subst hnil
      rw [List.append_nil] at ht
      refine ⟨host, hhost, mark, hmark, [], ?_, hne, hall, nofun⟩
      rw [← ht, List.append_nil]
    · refine ⟨host, hhost, mark, hmark, t, by simp only [List.append_assoc], hne, hall,
        fun c hc => hend c ?_⟩
      rw [hrest, Option.mem_def, List.head?_append, Option.mem_def.mp hc]
      rfl
  · rintro ⟨host, hhost, mark, hmark, rest, rfl, hne, hall, hend⟩
    refine ⟨host, hhost, mark, hmark, rest ++ spaces, ?_, hne, hall, fun c hc => ?_⟩
    · simp only [List.append_assoc]
    · cases rest with
      | cons d rest => exact hend c hc
      | nil =>
        by_contra hhash
        have hspace := hspaces c (List.mem_of_mem_head? hc)
        rw [isSpace_of_isHashChar (Bool.not_eq_false _ ▸ hhash)] at hspace
        cases hspace

theorem linkHash_append {spaces : List Char} (hspaces : ∀ c ∈ spaces, isSpace c = true)
    (s : List Char) : linkHash (s ++ spaces) = linkHash s :=
  Option.ext fun _ => linkHash_eq_some_iff.trans <|
    (linkAt_append_iff hspaces).trans linkHash_eq_some_iff.symm

/-- No link begins with whitespace. -/
theorem linkHash_of_isSpace {c : Char} (hc : isSpace c = true) (s : List Char) :
    linkHash (c :: s) = none := by
  refine Option.eq_none_iff_forall_ne_some.mpr fun _ hread => ?_
  obtain ⟨host, hhost, mark, hmark, rest, hs, -, hall, -⟩ := linkHash_eq_some_iff.mp hread
  have hmem : c ∈ host := by
    have hne : host ≠ [] := by
      rintro rfl
      exact absurd hhost (by decide)
    obtain ⟨d, host, rfl⟩ := List.exists_cons_of_ne_nil hne
    obtain ⟨rfl, -⟩ := List.cons.inj hs
    exact List.mem_cons_self ..
  rw [isSpace_of_mem_link hhost hmark hall (List.mem_append_left _ hmem)] at hc
  cases hc

/-- **Whitespace around a reference changes nothing.** -/
theorem hashIn_strip (reference : String) :
    hashIn (strip reference).toList = hashIn reference.toList := by
  have hspaces : ∀ spaces : List Char, (∀ c ∈ spaces, isSpace c = true) → hashIn spaces = none := by
    intro spaces hall
    induction spaces with
    | nil => exact hashIn_nil
    | cons c spaces ih =>
      rw [hashIn_cons, linkHash_of_isSpace (hall c (List.mem_cons_self ..)),
        ih fun d hd => hall d (List.mem_cons_of_mem _ hd)]
      rfl
  have hbehind : ∀ s spaces : List Char, (∀ c ∈ spaces, isSpace c = true) →
      hashIn (s ++ spaces) = hashIn s := by
    intro s spaces hall
    induction s with
    | nil => exact hspaces spaces hall
    | cons c s ih =>
      rw [List.cons_append, hashIn_cons, hashIn_cons, ih, ← List.cons_append, linkHash_append hall]
  have hbefore : ∀ spaces s : List Char, (∀ c ∈ spaces, isSpace c = true) →
      hashIn (spaces ++ s) = hashIn s := by
    intro spaces s hall
    induction spaces with
    | nil => rfl
    | cons c spaces ih =>
      rw [List.cons_append, hashIn_cons, linkHash_of_isSpace (hall c (List.mem_cons_self ..)),
        Option.none_or, ih fun d hd => hall d (List.mem_cons_of_mem _ hd)]
  rw [strip, String.toList_ofList]
  conv_rhs =>
    rw [← List.takeWhile_append_dropWhile (p := isSpace) (l := reference.toList),
      hbefore _ _ fun c hc => List.mem_takeWhile_imp hc,
      ← List.rdropWhile_append_rtakeWhile (p := isSpace) (l := reference.toList.dropWhile isSpace),
      hbehind _ _ fun c hc => List.mem_rtakeWhile_imp hc]

/-! ## The hash of a reference -/

/-- **The hash is that of the first link of the reference**: the whole of it, whatever stands before
the link and behind it. -/
theorem inviteHash_eq_some_iff {reference hash : String} :
    inviteHash reference = some hash ↔
      ∃ before after, reference.toList = before ++ after ∧ LinkAt after hash.toList ∧
        ∀ before' after' h, reference.toList = before' ++ after' → LinkAt after' h →
          before.length ≤ before'.length := by
  rw [inviteHash, hashIn_strip, ← hashIn_eq_some_iff, Option.map_eq_some_iff]
  constructor
  · rintro ⟨h, hread, rfl⟩
    rw [hread, String.toList_ofList]
  · exact fun hread => ⟨hash.toList, hread, String.ofList_toList⟩

theorem inviteHash_eq_none_iff {reference : String} :
    inviteHash reference = none ↔
      ∀ before after h, reference.toList = before ++ after → ¬ LinkAt after h := by
  rw [inviteHash, hashIn_strip, Option.map_eq_none_iff]
  generalize reference.toList = s
  induction s with
  | nil =>
    refine iff_of_true hashIn_nil fun before after h hs hlink => ?_
    obtain ⟨-, rfl⟩ := List.append_eq_nil_iff.mp hs.symm
    exact absurd (linkHash_eq_some_iff.mpr hlink) nofun
  | cons c s ih =>
    rw [hashIn_cons, Option.or_eq_none_iff, ih]
    constructor
    · rintro ⟨hnone, hrest⟩ before after h hs hlink
      cases before with
      | nil =>
        obtain rfl : c :: s = after := hs
        exact absurd (hnone.symm.trans (linkHash_eq_some_iff.mpr hlink)) nofun
      | cons d before => exact hrest before after h (List.cons.inj hs).2 hlink
    · refine fun hall => ⟨Option.eq_none_iff_forall_ne_some.mpr fun h hread => ?_, ?_⟩
      · exact hall [] (c :: s) h rfl (linkHash_eq_some_iff.mp hread)
      · exact fun before after h hs => hall (c :: before) after h (congrArg (c :: ·) hs)

/-- The host of a link need not be the whole name of a host. -/
example : inviteHash "https://not.me/+aB3_-?x" = some "aB3_-" := by decide

end InviteLinks
end Telegram
end MigrationStudio
