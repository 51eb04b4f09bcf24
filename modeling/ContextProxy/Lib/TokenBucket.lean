import Mathlib.Algebra.Order.Field.Basic
import Mathlib.Data.List.Chain
import Mathlib.Tactic.Linarith

/-!
# Token buckets

A bucket fills at a constant rate up to its capacity, and a request is granted if there is a token for it. Whatever the times of the requests, the grants in an interval are at most the capacity and the inflow (`grants_within_le`): from a request on they are paid for by the level at that request and what flows in after it (`grants_until_le`).
-/

namespace ContextProxy

structure Bucket (K : Type) where
  tokens : K
  updated : K

structure Inflow (K : Type) where
  rate : K
  capacity : K

variable {K : Type} [LinearOrder K]

namespace Inflow

variable [Field K] (flow : Inflow K)

def level (b : Bucket K) (now : K) : K := min flow.capacity (b.tokens + (now - b.updated) * flow.rate)

def request (level now : K) : Bool × Bucket K := if 1 ≤ level then (true, ⟨level - 1, now⟩) else (false, ⟨level, now⟩)

def grants : Bucket K → List K → List (K × Bool)
  | _, [] => []
  | b, now :: times =>
    let (granted, b') := request (flow.level b now) now
    (now, granted) :: grants b' times

end Inflow

/-- How many requests were granted in an interval. -/
def grantedWithin (first last : K) (outcomes : List (K × Bool)) : ℕ :=
  outcomes.countP fun outcome => outcome.2 && decide (first ≤ outcome.1 ∧ outcome.1 ≤ last)

theorem grantedWithin_cons (first last : K) (outcome : K × Bool) (outcomes : List (K × Bool)) :
    grantedWithin first last (outcome :: outcomes)
      = grantedWithin first last outcomes + if outcome.2 ∧ first ≤ outcome.1 ∧ outcome.1 ≤ last then 1 else 0 := by
  rw [grantedWithin, List.countP_cons]
  simp [grantedWithin]

variable {outcomes : List (K × Bool)}

theorem grantedWithin_eq_zero {first last : K} (h : ∀ o ∈ outcomes, last < o.1) :
    grantedWithin first last outcomes = 0 := by
  rw [grantedWithin, List.countP_eq_zero]
  intro o ho
  simp [h o ho]

theorem grantedWithin_le_of_forall₂ {first last : K} {outcomes' : List (K × Bool)}
    (h : List.Forall₂ (fun o o' => o.1 = o'.1 ∧ (o.2 = true → o'.2 = true)) outcomes outcomes') :
    grantedWithin first last outcomes ≤ grantedWithin first last outcomes' := by
  induction h with
  | nil => exact Nat.le_refl _
  | @cons o o' outcomes outcomes' ho _ ih =>
    rw [grantedWithin_cons, grantedWithin_cons, ho.1]
    apply Nat.add_le_add ih
    split
    · rename_i hcounted
      rw [if_pos ⟨ho.2 hcounted.1, hcounted.2⟩]
    · exact Nat.zero_le _

namespace Inflow

variable [Field K] {flow : Inflow K} {b : Bucket K} {now first last : K} {times : List K}

theorem times_grants : (flow.grants b times).map (·.1) = times := by
  induction times generalizing b with
  | nil => rfl
  | cons now times ih => exact congrArg (now :: ·) ih

theorem level_le : flow.level b now ≤ b.tokens + (now - b.updated) * flow.rate := min_le_right _ _

theorem level_le_capacity : flow.level b now ≤ flow.capacity := min_le_left _ _

theorem grantedWithin_of_lt (htimes : (now :: times).IsChain (· ≤ ·)) (hnow : last < now) :
    grantedWithin first last (flow.grants b (now :: times)) = 0 := by
  apply grantedWithin_eq_zero
  intro o ho
  have hmem : o.1 ∈ (flow.grants b (now :: times)).map (·.1) := List.mem_map_of_mem ho
  rw [times_grants, List.mem_cons] at hmem
  rcases hmem with hfirst | hmem
  · exact hfirst ▸ hnow
  · exact hnow.trans_le ((List.pairwise_cons.mp (List.isChain_iff_pairwise.mp htimes)).1 _ hmem)

theorem grants_level : flow.grants ⟨flow.level b now, now⟩ (now :: times) = flow.grants b (now :: times) := by
  have hlevel : flow.level ⟨flow.level b now, now⟩ now = flow.level b now := by
    rw [level, sub_self, zero_mul, add_zero]
    exact min_eq_right level_le_capacity
  rw [grants, grants, hlevel]

variable [IsStrictOrderedRing K]

theorem level_nonneg (hcapacity : 0 ≤ flow.capacity) (hrate : 0 ≤ flow.rate) (hb : 0 ≤ b.tokens) (hnow : b.updated ≤ now) :
    0 ≤ flow.level b now := by
  apply le_min hcapacity
  have := mul_nonneg (sub_nonneg.mpr hnow) hrate
  linarith

theorem request_spec {level : K} {granted : Bool} {b' : Bucket K} (h : request level now = (granted, b')) :
    b'.updated = now ∧ b'.tokens + (if granted then 1 else 0) = level ∧ (0 ≤ level → 0 ≤ b'.tokens) := by
  rw [request] at h
  split at h
  · obtain ⟨rfl, rfl⟩ := Prod.mk.inj h
    rename_i hone
    exact ⟨rfl, by simp, fun _ => sub_nonneg.mpr hone⟩
  · obtain ⟨rfl, rfl⟩ := Prod.mk.inj h
    exact ⟨rfl, by simp, id⟩

/-- Up to a moment, the grants are paid for by what is in the bucket and what flows in. -/
theorem grants_until_le (hcapacity : 0 ≤ flow.capacity) (hrate : 0 ≤ flow.rate) (hb : 0 ≤ b.tokens)
    (htimes : (b.updated :: times).IsChain (· ≤ ·)) (hlast : b.updated ≤ last) :
    (grantedWithin first last (flow.grants b times) : K) ≤ b.tokens + (last - b.updated) * flow.rate := by
  induction times generalizing b with
  | nil =>
    have hinflow := mul_nonneg (sub_nonneg.mpr hlast) hrate
    simp only [grants, grantedWithin, List.countP_nil, Nat.cast_zero]
    linarith
  | cons now times ih =>
    rw [List.isChain_cons_cons] at htimes
    obtain ⟨hnow, htimes⟩ := htimes
    by_cases hpast : now ≤ last
    · obtain ⟨granted, b', hrequest⟩ : ∃ granted b', request (flow.level b now) now = (granted, b') := ⟨_, _, rfl⟩
      obtain ⟨rfl, htokens, hnonneg⟩ := request_spec hrequest
      have hrest := ih (hnonneg (level_nonneg hcapacity hrate hb hnow)) htimes hpast
      have hlevel : flow.level b b'.updated ≤ _ := level_le
      -- the request itself takes at most the token it is granted
      have hone : ((if granted ∧ first ≤ b'.updated ∧ b'.updated ≤ last then 1 else 0 : ℕ) : K)
          ≤ if granted then 1 else 0 := by
        cases granted with
        | false => simp
        | true => split <;> simp
      rw [grants, hrequest, grantedWithin_cons, Nat.cast_add]
      linarith
    · have hinflow := mul_nonneg (sub_nonneg.mpr hlast) hrate
      rw [grantedWithin_of_lt htimes (lt_of_not_ge hpast), Nat.cast_zero]
      linarith

/-- In an interval at most the capacity and the inflow are granted. -/
theorem grants_within_le (hcapacity : 0 ≤ flow.capacity) (hrate : 0 ≤ flow.rate) (hb : 0 ≤ b.tokens)
    (htimes : (b.updated :: times).IsChain (· ≤ ·)) (hfirst : first ≤ last) :
    (grantedWithin first last (flow.grants b times) : K) ≤ flow.capacity + (last - first) * flow.rate := by
  have hinflow := mul_nonneg (sub_nonneg.mpr hfirst) hrate
  induction times generalizing b with
  | nil =>
    simp only [grants, grantedWithin, List.countP_nil, Nat.cast_zero]
    linarith
  | cons now times ih =>
    rw [List.isChain_cons_cons] at htimes
    obtain ⟨hnow, htimes⟩ := htimes
    have hlevel := level_nonneg hcapacity hrate hb hnow
    by_cases hbefore : now < first
    · obtain ⟨granted, b', hrequest⟩ : ∃ granted b', request (flow.level b now) now = (granted, b') := ⟨_, _, rfl⟩
      obtain ⟨rfl, -, hnonneg⟩ := request_spec hrequest
      have hskip : ¬(granted ∧ first ≤ b'.updated ∧ b'.updated ≤ last) := fun h => absurd h.2.1 (not_le_of_gt hbefore)
      rw [grants, hrequest, grantedWithin_cons, if_neg hskip, Nat.add_zero]
      exact ih (hnonneg hlevel) htimes
    · by_cases hpast : now ≤ last
      · -- the first request of the interval finds at most the capacity
        have huntil : (grantedWithin first last (flow.grants ⟨flow.level b now, now⟩ (now :: times)) : K)
            ≤ flow.level b now + (last - now) * flow.rate :=
          grants_until_le hcapacity hrate hlevel (List.isChain_cons_cons.mpr ⟨le_refl now, htimes⟩) hpast
        have hfull : flow.level b now ≤ flow.capacity := level_le_capacity
        have hshorter : (last - now) * flow.rate ≤ (last - first) * flow.rate :=
          mul_le_mul_of_nonneg_right (sub_le_sub_left (le_of_not_gt hbefore) last) hrate
        rw [grants_level] at huntil
        linarith
      · rw [grantedWithin_of_lt htimes (lt_of_not_ge hpast), Nat.cast_zero]
        linarith

end Inflow

end ContextProxy
