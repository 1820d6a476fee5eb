import MigrationStudio.Core.Enums
import MigrationStudio.Members.Models

/-!
# `TelethonGateway.iter_participant_pages`

The participants of a channel come in pages.  The server answers a request for an offset and a
limit with some of the participants from that offset on, possibly fewer than asked, and any request
may fail; the gateway asks for the next page at the offset it has reached and stops after an empty
page or a page shorter than the limit.

* `Channel`: a channel whose server behaves so, with every size of a reply and every failure.
* `iterParticipantPages`: the generator, as the pages it yields and whether it ends by raising.
* `Channel.Ends`, `iterParticipantPages_terminates`: it yields finitely many pages, the list up to
  the offset of its last request.
-/

namespace MigrationStudio
namespace Telegram

open Members

/-- A channel and its server.  `reply i offset limit` is the answer to the `i`-th request, `none`
when the request fails: the users that it holds stand in the list from the offset on, at most
`limit` of them, and at least one while the offset is inside the list.  `connected` says whether
the client of the account and the input channel can be had at all. -/
structure Channel where
  connected : Bool
  participants : List RawUser
  reply : ℕ → ℕ → ℕ → Option (List RawUser)
  slice : ∀ i offset limit users, reply i offset limit = some users →
    users <+: participants.drop offset
  atMost : ∀ i offset limit users, reply i offset limit = some users → users.length ≤ limit
  nonempty : ∀ i offset limit users, reply i offset limit = some users → 0 < limit →
    offset < participants.length → users ≠ []

/-- What a generator has done when it is over: the pages it yielded, and whether it raised. -/
structure Yielded where
  pages : List (List Member)
  raised : Bool
  deriving DecidableEq, Repr

/-- The group whose participants are read.  A basic chat answers with all its users at once. -/
inductive ParticipantSource where
  | chat (reply : Option (List RawUser))
  | channel (c : Channel)

/-- `page_limit` of the gateway. -/
def pageLimit (limit : ℤ) : ℕ := (max 1 (min limit 200)).toNat

/-- The loop of `iter_participant_pages` from its request `i` on, for as many requests as `fuel`
says; `none` when they do not suffice. -/
def pagesLoop (c : Channel) (limit : ℕ) : ℕ → ℕ → ℕ → Option Yielded
  | 0, _, _ => none
  | fuel + 1, i, current =>
      match c.reply i current limit with
      | none => some ⟨[], true⟩
      | some users =>
          if users = [] then some ⟨[], false⟩
          else if users.length < limit then some ⟨[users.map normalizeMember], false⟩
          else
            (pagesLoop c limit fuel (i + 1) (current + users.length)).map fun rest =>
              { rest with pages := users.map normalizeMember :: rest.pages }

/-- `iter_participant_pages`, with a bound on the requests. -/
def iterParticipantPages (fuel : ℕ) (offset limit : ℤ) : ParticipantSource → Option Yielded
  | .chat reply =>
      if 0 < offset then some ⟨[], false⟩
      else
        match reply with
        | none => some ⟨[], true⟩
        | some users => some ⟨if users = [] then [] else [users.map normalizeMember], false⟩
  | .channel c =>
      if c.connected then pagesLoop c (pageLimit limit) fuel 0 (max 0 offset).toNat
      else some ⟨[], true⟩

/-! ## The offsets of the requests -/

namespace Channel

variable {c : Channel} {limit : ℕ}

/-- The `i`-th request for a page at `i` times the limit is answered by a full page. -/
def Full (c : Channel) (limit i : ℕ) : Prop :=
  ∃ users, c.reply i (i * limit) limit = some users ∧ users.length = limit

/-- The gateway stops after the `i`-th request, at this offset: all requests before are answered
by full pages, and this one by fewer users than asked. -/
def StopsAt (c : Channel) (limit i stop : ℕ) : Prop :=
  (∀ k < i, c.Full limit k) ∧
    ∃ users, c.reply i (i * limit) limit = some users ∧ users.length < limit ∧
      stop = i * limit + users.length

/-- The gateway fails at the `i`-th request: all requests before are answered by full pages. -/
def FailsAt (c : Channel) (limit i : ℕ) : Prop :=
  (∀ k < i, c.Full limit k) ∧ c.reply i (i * limit) limit = none

theorem take_append_slice {i : ℕ} {users : List RawUser}
    (h : c.reply i (i * limit) limit = some users) :
    c.participants.take (i * limit) ++ users = c.participants.take (i * limit + users.length) := by
  obtain ⟨rest, hrest⟩ := c.slice i _ limit users h
  have htake : users = (c.participants.drop (i * limit)).take users.length := by
    rw [← hrest, List.take_left]
  rw [List.take_add, ← htake]

/-- As long as the pages are full, the offset is inside the list. -/
theorem offset_le {i : ℕ} (hfull : ∀ k < i, c.Full limit k) :
    i * limit ≤ c.participants.length := by
  cases i with
  | zero => omega
  | succ i =>
      obtain ⟨users, hreply, hlen⟩ := hfull i (Nat.lt_succ_self i)
      have hle := (c.slice i _ limit users hreply).length_le
      rw [hlen, List.length_drop] at hle
      by_cases hlimit : limit = 0
      · rw [hlimit, Nat.mul_zero]
        exact Nat.zero_le _
      · rw [Nat.succ_mul]
        omega

/-- A request that is not answered by a full page is the last. -/
theorem last_unique {i k : ℕ} (hi : ∀ j < i, c.Full limit j) (hk : ∀ j < k, c.Full limit j)
    (hnoti : ¬ c.Full limit i) (hnotk : ¬ c.Full limit k) : i = k := by
  rcases Nat.lt_trichotomy i k with hlt | heq | hlt
  · exact absurd (hk i hlt) hnoti
  · exact heq
  · exact absurd (hi k hlt) hnotk

theorem StopsAt.not_full {i stop : ℕ} (h : c.StopsAt limit i stop) : ¬ c.Full limit i := by
  obtain ⟨-, users, hreply, hshort, -⟩ := h
  rintro ⟨users', hreply', hlen⟩
  rw [hreply, Option.some.injEq] at hreply'
  subst hreply'
  exact absurd hlen (Nat.ne_of_lt hshort)

theorem FailsAt.not_full {i : ℕ} (h : c.FailsAt limit i) : ¬ c.Full limit i := by
  rintro ⟨users, hreply, -⟩
  rw [h.2] at hreply
  exact absurd hreply (by simp)

/-- A loop that stops somewhere stops there only, and does not fail. -/
theorem StopsAt.unique {i k stop stop' : ℕ} (h : c.StopsAt limit i stop)
    (h' : c.StopsAt limit k stop') : stop = stop' := by
  obtain rfl := last_unique h.1 h'.1 h.not_full h'.not_full
  obtain ⟨-, users, hreply, -, rfl⟩ := h
  obtain ⟨-, users', hreply', -, rfl⟩ := h'
  rw [hreply, Option.some.injEq] at hreply'
  rw [hreply']

theorem StopsAt.not_failsAt {i k stop : ℕ} (h : c.StopsAt limit i stop) :
    ¬ c.FailsAt limit k := by
  intro h'
  obtain rfl := last_unique h.1 h'.1 h.not_full h'.not_full
  obtain ⟨-, users, hreply, -⟩ := h
  rw [h'.2] at hreply
  exact absurd hreply (by simp)

/-- The loop has yielded `before` and is over: it has stopped at an offset, or failed. -/
def Ends (c : Channel) (limit : ℕ) (raised : Bool) (before : List Member) : Prop :=
  (raised = false ∧ ∃ k stop, c.StopsAt limit k stop ∧
      before = (c.participants.take stop).map normalizeMember) ∨
    (raised = true ∧ ∃ k, c.FailsAt limit k ∧
      before = (c.participants.take (k * limit)).map normalizeMember)

/-- **What the loop yields.**  From the `i`-th request on, with all pages before full, the loop
needs no more requests than the rest of the list, and yields that rest up to the offset at which it
stops or fails. -/
theorem pagesLoop_spec (hlimit : 0 < limit) (fuel i : ℕ) (hfull : ∀ k < i, c.Full limit k)
    (hfuel : c.participants.length < i * limit + fuel * limit) :
    ∃ y, pagesLoop c limit fuel i (i * limit) = some y ∧
      c.Ends limit y.raised
        ((c.participants.take (i * limit)).map normalizeMember ++ y.pages.flatten) := by
  induction fuel generalizing i with
  | zero =>
      have hle := offset_le hfull
      omega
  | succ fuel ih =>
      unfold pagesLoop
      cases hreply : c.reply i (i * limit) limit with
      | none => exact ⟨_, rfl, Or.inr ⟨rfl, i, ⟨hfull, hreply⟩, by simp⟩⟩
      | some users =>
          have hmost := c.atMost i _ limit users hreply
          have htake := take_append_slice hreply
          have hstop : users.length < limit → c.StopsAt limit i (i * limit + users.length) :=
            fun hshort => ⟨hfull, users, hreply, hshort, rfl⟩
          by_cases hnil : users = []
          · refine ⟨⟨[], false⟩, by simp [hnil], Or.inl ⟨rfl, i, _, hstop ?_, ?_⟩⟩
            · rw [hnil]
              exact hlimit
            · rw [← htake, hnil]
              simp
          · by_cases hshort : users.length < limit
            · refine ⟨⟨[users.map normalizeMember], false⟩, by simp [hnil, hshort],
                Or.inl ⟨rfl, i, _, hstop hshort, ?_⟩⟩
              rw [← htake, List.map_append]
              simp
            · have hlen : users.length = limit := by omega
              have hnext : i * limit + users.length = (i + 1) * limit := by
                rw [hlen, Nat.succ_mul]
              have hfull' : ∀ k < i + 1, c.Full limit k := by
                intro k hk
                rcases Nat.lt_succ_iff_lt_or_eq.mp hk with hlt | rfl
                · exact hfull k hlt
                · exact ⟨users, hreply, hlen⟩
              obtain ⟨y, hy, hends⟩ := ih (i + 1) hfull' (by rw [Nat.succ_mul] at *; omega)
              refine ⟨{ y with pages := users.map normalizeMember :: y.pages }, ?_, ?_⟩
              · simp only [if_neg hnil, if_neg hshort]
                rw [hnext, hy]
                rfl
              · rw [← hnext, ← htake, List.map_append, List.append_assoc] at hends
                exact hends

/-- More requests than needed change nothing. -/
theorem pagesLoop_mono {fuel : ℕ} (more i current : ℕ) {y : Yielded}
    (h : pagesLoop c limit fuel i current = some y) :
    pagesLoop c limit (fuel + more) i current = some y := by
  induction fuel generalizing i current y with
  | zero => exact absurd h (by simp [pagesLoop])
  | succ fuel ih =>
      rw [Nat.succ_add]
      unfold pagesLoop at h ⊢
      cases hreply : c.reply i current limit with
      | none => rwa [hreply] at h
      | some users =>
          rw [hreply] at h
          simp only at h ⊢
          split_ifs at h ⊢ with hnil hshort
          · exact h
          · exact h
          · obtain ⟨rest, hrest, rfl⟩ := Option.map_eq_some_iff.mp h
            rw [ih _ _ hrest]
            rfl

end Channel

/-- **The generator ends**: one request more than there are participants always suffices, and more
of them change nothing. -/
theorem iterParticipantPages_terminates (c : Channel) (limit : ℤ)
    (hconn : c.connected = true) :
    ∃ y, (∀ fuel, c.participants.length < fuel →
        iterParticipantPages fuel 0 limit (.channel c) = some y) ∧
      c.Ends (pageLimit limit) y.raised y.pages.flatten := by
  have hlimit : 0 < pageLimit limit := by
    unfold pageLimit
    omega
  obtain ⟨y, hy, hends⟩ := Channel.pagesLoop_spec (c := c) hlimit (c.participants.length + 1) 0
    (fun k hk => absurd hk (Nat.not_lt_zero k)) (by
      rw [Nat.zero_mul, Nat.zero_add]
      exact Nat.le_mul_of_pos_right _ hlimit)
  rw [Nat.zero_mul] at hy
  refine ⟨y, fun fuel hfuel => ?_, by simpa using hends⟩
  obtain ⟨more, rfl⟩ := Nat.exists_eq_add_of_le hfuel
  simpa [iterParticipantPages, hconn] using Channel.pagesLoop_mono more 0 0 hy

end Telegram
end MigrationStudio
