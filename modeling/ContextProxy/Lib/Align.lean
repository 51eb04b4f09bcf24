import Mathlib.Data.List.Forall2
import Mathlib.Tactic.Common

/-!
# Aligning two lists

Two lists over a Boolean relation that need not be symmetric: how far they agree from the front and from the back, and where one meets the last element of the other. The existence lemmas cut the lists; the loops `agreeLen` and `walkBack` count, as index code does. A cut with nothing left to match is what the loop finds, so a proof about the loops argues with lists.
-/

namespace ContextProxy

open List

variable {α β : Type*} (r : α → β → Bool)

abbrev Agree (as : List α) (bs : List β) : Prop := List.Forall₂ (fun a b => r a b = true) as bs

def HeadsDiffer (as : List α) (bs : List β) : Prop := ∀ a ∈ as.head?, ∀ b ∈ bs.head?, r a b = false

def LastsDiffer (as : List α) (bs : List β) : Prop := ∀ a ∈ as.getLast?, ∀ b ∈ bs.getLast?, r a b = false

instance (as : List α) (bs : List β) : Decidable (HeadsDiffer r as bs) :=
  inferInstanceAs (Decidable (∀ a ∈ as.head?, ∀ b ∈ bs.head?, r a b = false))

instance (as : List α) (bs : List β) : Decidable (LastsDiffer r as bs) :=
  inferInstanceAs (Decidable (∀ a ∈ as.getLast?, ∀ b ∈ bs.getLast?, r a b = false))

/-! ### Cutting -/

theorem exists_commonPrefix (as : List α) (bs : List β) :
    ∃ x as' x' bs', as = x ++ as' ∧ bs = x' ++ bs' ∧ Agree r x x' ∧ HeadsDiffer r as' bs' := by
  induction as generalizing bs with
  | nil => exact ⟨[], [], [], bs, rfl, rfl, .nil, by simp [HeadsDiffer]⟩
  | cons a as ih =>
    cases bs with
    | nil => exact ⟨[], a :: as, [], [], rfl, rfl, .nil, by simp [HeadsDiffer]⟩
    | cons b bs =>
      cases hab : r a b with
      | false => exact ⟨[], a :: as, [], b :: bs, rfl, rfl, .nil, by simp [HeadsDiffer, hab]⟩
      | true =>
        obtain ⟨x, as', x', bs', rfl, rfl, hx, hd⟩ := ih bs
        exact ⟨a :: x, as', b :: x', bs', rfl, rfl, .cons hab hx, hd⟩

theorem exists_commonSuffix (as : List α) (bs : List β) :
    ∃ as' g bs' g', as = as' ++ g ∧ bs = bs' ++ g' ∧ Agree r g g' ∧ LastsDiffer r as' bs' := by
  obtain ⟨x, as', x', bs', ha, hb, hx, hd⟩ := exists_commonPrefix r as.reverse bs.reverse
  refine ⟨as'.reverse, x.reverse, bs'.reverse, x'.reverse, ?_, ?_, rel_reverse hx, ?_⟩
  · rw [← reverse_append, ← ha, reverse_reverse]
  · rw [← reverse_append, ← hb, reverse_reverse]
  · simpa only [LastsDiffer, HeadsDiffer, getLast?_reverse] using hd

theorem exists_lastMatch (q : β → Bool) (bs : List β) :
    (∀ b ∈ bs, q b = false) ∨ ∃ front b tail, bs = front ++ b :: tail ∧ q b = true ∧ ∀ c ∈ tail, q c = false := by
  induction bs with
  | nil => exact .inl (by simp)
  | cons b bs ih =>
    rcases ih with hnone | ⟨front, c, tail, rfl, hc, htail⟩
    · cases hb : q b with
      | false => exact .inl (by simpa [hb] using hnone)
      | true => exact .inr ⟨[], b, bs, rfl, hb, hnone⟩
    · exact .inr ⟨b :: front, c, tail, rfl, hc, htail⟩

variable {r}

variable {a₁ a₂ as x : List α} {b₁ b₂ bs x' : List β} {exempt : β → Bool}

theorem Agree.append (h₁ : Agree r a₁ b₁) (h₂ : Agree r a₂ b₂) :
    Agree r (a₁ ++ a₂) (b₁ ++ b₂) := rel_append h₁ h₂

theorem lastsDiffer_singleton (h : as ≠ []) (b : β) : LastsDiffer r as [b] ↔ r (as.getLast h) b = false := by
  simp [LastsDiffer, getLast?_eq_some_getLast h]

theorem HeadsDiffer.append (h : HeadsDiffer r as bs) (ha : as ≠ []) (hb : bs ≠ []) (y : List α) (y' : List β) :
    HeadsDiffer r (as ++ y) (bs ++ y') := by
  rw [HeadsDiffer, head?_append_of_ne_nil _ ha, head?_append_of_ne_nil _ hb]
  exact h

theorem HeadsDiffer.of_append_right {y : List β} (h : HeadsDiffer r as (bs ++ y)) (hb : bs ≠ []) :
    HeadsDiffer r as bs := by
  rwa [HeadsDiffer, head?_append_of_ne_nil _ hb] at h

theorem Agree.not_headsDiffer (h : Agree r x x') (hne : x' ≠ []) (y : List α) (y' : List β) :
    ¬ HeadsDiffer r (x ++ y) (x' ++ y') := by
  intro hd
  cases h with
  | nil => exact hne rfl
  | cons hab _ => simp [HeadsDiffer, hab] at hd

theorem Agree.exists_of_append_left (h : Agree r (a₁ ++ a₂) bs) :
    ∃ b₁ b₂, bs = b₁ ++ b₂ ∧ Agree r a₁ b₁ ∧ Agree r a₂ b₂ := by
  induction a₁ generalizing bs with
  | nil => exact ⟨[], bs, rfl, .nil, h⟩
  | cons a a₁ ih =>
    cases h with
    | cons hab hrest =>
      obtain ⟨b₁, b₂, rfl, h₁, h₂⟩ := ih hrest
      exact ⟨_ :: b₁, b₂, rfl, .cons hab h₁, h₂⟩

theorem Agree.exists_of_append_right (h : Agree r as (b₁ ++ b₂)) :
    ∃ a₁ a₂, as = a₁ ++ a₂ ∧ Agree r a₁ b₁ ∧ Agree r a₂ b₂ := by
  have hflip : Agree (fun b a => r a b) (b₁ ++ b₂) as := List.Forall₂.flip h
  obtain ⟨a₁, a₂, hb, h₁, h₂⟩ := hflip.exists_of_append_left
  exact ⟨a₁, a₂, hb, List.Forall₂.flip h₁, List.Forall₂.flip h₂⟩

theorem Agree.getLast (h : Agree r as bs) {a : α} {b : β} (ha : a ∈ as.getLast?) (hb : b ∈ bs.getLast?) : r a b = true := by
  have hrev : Agree r as.reverse bs.reverse := rel_reverse h
  rw [← head?_reverse] at ha hb
  generalize as.reverse = as' at hrev ha
  generalize bs.reverse = bs' at hrev hb
  cases hrev with
  | nil => simp at ha
  | cons hab _ =>
    simp only [head?_cons, Option.mem_some_iff] at ha hb
    rwa [← ha, ← hb]

/-! ### Counting from the front -/

variable (r) in
/-- How many positions agree from the front. -/
def agreeLen : List α → List β → ℕ
  | a :: as, b :: bs => if r a b then agreeLen as bs + 1 else 0
  | _, _ => 0

theorem agreeLen_of_headsDiffer (h : HeadsDiffer r as bs) : agreeLen r as bs = 0 := by
  cases as with
  | nil => rfl
  | cons a as =>
    cases bs with
    | nil => rfl
    | cons b bs => simp [agreeLen, h a (by simp) b (by simp)]

theorem agreeLen_append (h : Agree r x x') (as : List α) (bs : List β) :
    agreeLen r (x ++ as) (x' ++ bs) = x.length + agreeLen r as bs := by
  induction h with
  | nil => simp
  | cons hab _ ih =>
    simp only [cons_append, agreeLen, hab, if_true, ih, length_cons]
    omega

theorem agreeLen_of_cut (h : Agree r x x') (hd : HeadsDiffer r as bs) : agreeLen r (x ++ as) (x' ++ bs) = x.length := by
  rw [agreeLen_append h, agreeLen_of_headsDiffer hd, Nat.add_zero]

/-! ### Walking back -/

variable (r) in
/-- Whether position `a` of one list matches position `b` of the other. -/
def matchAt (as : List α) (bs : List β) (a b : ℕ) : Bool :=
  match as[a]?, bs[b]? with
  | some x, some y => r x y
  | _, _ => false

variable (r) in
/-- Step back from the ends `a` and `b`, both exclusive, while the elements in front of them match and neither end has reached `lo`. -/
def walkBack (as : List α) (bs : List β) (lo : ℕ) : ℕ → ℕ → ℕ × ℕ
  | a + 1, b + 1 => if lo ≤ a ∧ lo ≤ b ∧ matchAt r as bs a b = true then walkBack as bs lo a b else (a + 1, b + 1)
  | a, b => (a, b)

variable {a b : ℕ}

theorem walkBack_add {lo : ℕ} (ha : lo ≤ a) (hb : lo ≤ b) (n : ℕ) (h : ∀ j < n, matchAt r as bs (a + j) (b + j) = true) :
    walkBack r as bs lo (a + n) (b + n) = walkBack r as bs lo a b := by
  induction n with
  | zero => rfl
  | succ n ih =>
    rw [← Nat.add_assoc, ← Nat.add_assoc, walkBack, if_pos ⟨by omega, by omega, h n (by omega)⟩]
    exact ih fun j hj => h j (by omega)

theorem walkBack_stop {lo : ℕ} (h : lo < a → lo < b → matchAt r as bs (a - 1) (b - 1) = false) :
    walkBack r as bs lo a b = (a, b) := by
  cases a with
  | zero => simp [walkBack]
  | succ a =>
    cases b with
    | zero => simp [walkBack]
    | succ b =>
      rw [walkBack, if_neg]
      rintro ⟨ha, hb, hm⟩
      rw [show a = a + 1 - 1 by omega, show b = b + 1 - 1 by omega, h (by omega) (by omega)] at hm
      exact Bool.noConfusion hm

theorem matchAt_append_left (x as : List α) (x' bs : List β) (a b : ℕ) :
    matchAt r (x ++ as) (x' ++ bs) (x.length + a) (x'.length + b) = matchAt r as bs a b := by
  rw [matchAt, matchAt, getElem?_append_right (by omega), getElem?_append_right (by omega),
    Nat.add_sub_cancel_left, Nat.add_sub_cancel_left]

theorem matchAt_append_right (ha : a < as.length) (hb : b < bs.length) (y : List α) (y' : List β) :
    matchAt r (as ++ y) (bs ++ y') a b = matchAt r as bs a b := by
  simp [matchAt, getElem?_append_left ha, getElem?_append_left hb]

theorem matchAt_of_agree (h : Agree r as bs) {j : ℕ} (hj : j < as.length) : matchAt r as bs j j = true := by
  have hj' : j < bs.length := h.length_eq ▸ hj
  have hrel := h.get hj hj'
  simpa [matchAt, getElem?_eq_getElem hj, getElem?_eq_getElem hj'] using hrel

theorem matchAt_lasts (h : LastsDiffer r as bs) : matchAt r as bs (as.length - 1) (bs.length - 1) = false := by
  rw [LastsDiffer] at h
  rw [matchAt, ← getLast?_eq_getElem?, ← getLast?_eq_getElem?]
  cases ha : as.getLast? with
  | none => rfl
  | some a =>
    cases hb : bs.getLast? with
    | none => rfl
    | some b => exact h a ha b hb

/-- Walking back from the end of an agreeing run whose fronts do not match stops where the run starts. -/
theorem walkBack_of_cut {d g : List α} {d' g' : List β} (hx : x.length = x'.length) (hg : Agree r g g')
    (hd : LastsDiffer r d d') (y : List α) (y' : List β) :
    walkBack r (x ++ d ++ g ++ y) (x' ++ d' ++ g' ++ y') x.length (x.length + d.length + g.length)
      (x'.length + d'.length + g'.length) = (x.length + d.length, x'.length + d'.length) := by
  rw [← hg.length_eq, walkBack_add (by omega) (by omega)]
  · apply walkBack_stop
    intro hlo hlo'
    have hdl : 0 < d.length := by omega
    have hdl' : 0 < d'.length := by omega
    rw [show x.length + d.length - 1 = x.length + (d.length - 1) by omega,
      show x'.length + d'.length - 1 = x'.length + (d'.length - 1) by omega]
    simp only [append_assoc]
    rw [matchAt_append_left, matchAt_append_right (by omega) (by omega)]
    exact matchAt_lasts hd
  · intro j hj
    have hj' : j < g'.length := hg.length_eq ▸ hj
    simp only [append_assoc, Nat.add_assoc]
    rw [matchAt_append_left, matchAt_append_left, matchAt_append_right hj hj']
    exact matchAt_of_agree hg hj

theorem walkBack_of_commonSuffix {d g : List α} {d' g' : List β} (hg : Agree r g g') (hd : LastsDiffer r d d') :
    walkBack r (d ++ g) (d' ++ g') 0 (d ++ g).length (d' ++ g').length = (d.length, d'.length) := by
  have h := walkBack_of_cut (show ([] : List α).length = ([] : List β).length from rfl) hg hd [] []
  simpa only [nil_append, append_nil, length_nil, Nat.zero_add, length_append] using h

/-! ### Lists that match alike -/

section Alike

variable {R : α → α → Prop} {S : β → β → Prop} {as as' : List α} {bs bs' : List β}

theorem agreeLen_congr (hr : ∀ a a' b b', R a a' → S b b' → r a b = r a' b') (has : List.Forall₂ R as as')
    (hbs : List.Forall₂ S bs bs') : agreeLen r as bs = agreeLen r as' bs' := by
  induction has generalizing bs bs' with
  | nil => rfl
  | cons ha _ ih =>
    cases hbs with
    | nil => rfl
    | cons hb hbs => rw [agreeLen, agreeLen, hr _ _ _ _ ha hb, ih hbs]

theorem getElem?_alike (has : List.Forall₂ R as as') (a : ℕ) :
    (as[a]? = none ∧ as'[a]? = none) ∨ ∃ x x', as[a]? = some x ∧ as'[a]? = some x' ∧ R x x' := by
  induction has generalizing a with
  | nil => exact .inl ⟨rfl, rfl⟩
  | @cons x x' as as' hx _ ih =>
    cases a with
    | zero => exact .inr ⟨x, x', rfl, rfl, hx⟩
    | succ a => exact ih a

theorem matchAt_congr (hr : ∀ a a' b b', R a a' → S b b' → r a b = r a' b') (has : List.Forall₂ R as as')
    (hbs : List.Forall₂ S bs bs') (a b : ℕ) : matchAt r as bs a b = matchAt r as' bs' a b := by
  rcases getElem?_alike has a with ⟨ha, ha'⟩ | ⟨x, x', ha, ha', hx⟩
  · rw [matchAt, matchAt, ha, ha']
  · rcases getElem?_alike hbs b with ⟨hb, hb'⟩ | ⟨y, y', hb, hb', hy⟩
    · rw [matchAt, matchAt, ha, ha', hb, hb']
    · rw [matchAt, matchAt, ha, ha', hb, hb']
      exact hr x x' y y' hx hy

theorem walkBack_congr (hr : ∀ a a' b b', R a a' → S b b' → r a b = r a' b') (has : List.Forall₂ R as as')
    (hbs : List.Forall₂ S bs bs') (lo a b : ℕ) : walkBack r as bs lo a b = walkBack r as' bs' lo a b := by
  induction a generalizing b with
  | zero => rfl
  | succ a ih =>
    cases b with
    | zero => rfl
    | succ b => rw [walkBack, walkBack, matchAt_congr hr has hbs, ih b]

end Alike

/-! ### Matching in order -/

variable (r) in
/-- Some partial map that keeps the order of the positions pairs every element of `bs` that is not exempt with an element of `as`. -/
def MatchedInOrder (exempt : β → Bool) (as : List α) (bs : List β) : Prop :=
  ∃ f : ℕ → Option ℕ, (∀ i j p q, i < j → f i = some p → f j = some q → p < q) ∧
    ∀ i b, bs[i]? = some b → (∃ p a, f i = some p ∧ as[p]? = some a ∧ r a b = true) ∨ exempt b = true

variable (r) in
/-- `bs` is a subsequence of `as`, up to the relation. -/
abbrev Embeds (bs : List β) (as : List α) : Prop := List.SublistForall₂ (fun b a => r a b = true) bs as

theorem Embeds.append (h₁ : Embeds r b₁ a₁) (h₂ : Embeds r b₂ a₂) : Embeds r (b₁ ++ b₂) (a₁ ++ a₂) := by
  obtain ⟨l₁, hr₁, hs₁⟩ := sublistForall₂_iff.mp h₁
  obtain ⟨l₂, hr₂, hs₂⟩ := sublistForall₂_iff.mp h₂
  exact sublistForall₂_iff.mpr ⟨l₁ ++ l₂, rel_append hr₁ hr₂, hs₁.append hs₂⟩

theorem Embeds.of_sublist {as' : List α} (h : Embeds r bs as) (hs : as.Sublist as') : Embeds r bs as' := by
  obtain ⟨l, hr, hl⟩ := sublistForall₂_iff.mp h
  exact sublistForall₂_iff.mpr ⟨l, hr, hl.trans hs⟩

/-- What stands between two parts of the same lengths on both sides is embedded on its own. -/
theorem Embeds.middle {b : List β} {a : List α} (h : Embeds r (b₁ ++ b ++ b₂) (a₁ ++ a ++ a₂))
    (h₁ : b₁.length = a₁.length) (h₂ : b₂.length = a₂.length) : Embeds r b a := by
  obtain ⟨l, hr, hs⟩ := sublistForall₂_iff.mp h
  have hlength := hr.length_eq
  -- drop the front from the left, then the back from the right
  have hfront : List.Forall₂ (fun b a => r a b = true) (b ++ b₂) (l.drop a₁.length) := by
    have := forall₂_drop a₁.length hr
    rwa [append_assoc, ← h₁, drop_left, h₁] at this
  have hback : List.Forall₂ (fun b a => r a b = true) b ((l.drop a₁.length).take b.length) := by
    have := forall₂_take b.length hfront
    rwa [take_left] at this
  have hdrop : (l.drop a₁.length).Sublist (a ++ a₂) := by
    have := hs.drop a₁.length
    rwa [append_assoc, drop_left] at this
  refine sublistForall₂_iff.mpr ⟨_, hback, ?_⟩
  rw [← reverse_sublist] at hdrop ⊢
  rw [reverse_append] at hdrop
  have hrest := hdrop.drop a₂.length
  rw [drop_left' (by simp), drop_reverse, length_drop] at hrest
  have htake : l.length - a₁.length - a₂.length = b.length := by
    simp only [length_append] at hlength
    omega
  rwa [htake] at hrest

theorem Agree.embeds_filter (h : Agree r as bs) (keep : β → Bool) : Embeds r (bs.filter keep) as := by
  induction h with
  | nil => exact .nil
  | @cons a b as bs hab _ ih =>
    rw [filter_cons]
    split
    · exact .cons hab ih
    · exact .cons_right ih

theorem MatchedInOrder.embeds (h : MatchedInOrder r exempt as bs) : Embeds r (bs.filter fun b => !exempt b) as := by
  obtain ⟨f, hmono, hf⟩ := h
  induction bs generalizing as f with
  | nil => exact .nil
  | cons b bs ih =>
    cases hb : exempt b with
    | true =>
      rw [filter_cons, if_neg (by simp [hb])]
      exact ih (fun i => f (i + 1)) (fun i j p q hij => hmono (i + 1) (j + 1) p q (by omega))
        fun i c hc => hf (i + 1) c (by simpa using hc)
    | false =>
      -- the partner of the first element splits `as`, and everything later is matched behind it
      obtain ⟨p, a, hp, ha, hab⟩ := (hf 0 b rfl).resolve_right (by simp [hb])
      have hrest : Embeds r (bs.filter fun b => !exempt b) (as.drop (p + 1)) := by
        refine ih (fun i => (f (i + 1)).map (· - (p + 1))) ?_ ?_
        · intro i j x y hij hx hy
          obtain ⟨x', hx', rfl⟩ := Option.map_eq_some_iff.mp hx
          obtain ⟨y', hy', rfl⟩ := Option.map_eq_some_iff.mp hy
          have hpx := hmono 0 (i + 1) p x' (by omega) hp hx'
          have hxy := hmono (i + 1) (j + 1) x' y' (by omega) hx' hy'
          omega
        · intro i c hc
          refine (hf (i + 1) c (by simpa using hc)).imp_left ?_
          rintro ⟨q, d, hq, hd, hdc⟩
          have hpq := hmono 0 (i + 1) p q (by omega) hp hq
          refine ⟨q - (p + 1), d, by simp [hq], ?_, hdc⟩
          rw [getElem?_drop, Nat.add_sub_cancel' (by omega)]
          exact hd
      rw [filter_cons, if_pos (by simp [hb])]
      have hdrop : as.drop p = a :: as.drop (p + 1) := by
        obtain ⟨hlt, rfl⟩ := List.getElem?_eq_some_iff.mp ha
        exact drop_eq_getElem_cons hlt
      exact Embeds.of_sublist (hdrop ▸ .cons hab hrest) (drop_sublist p as)

theorem MatchedInOrder.skip (h : MatchedInOrder r exempt as bs) {b : β} (hb : exempt b = true) :
    MatchedInOrder r exempt as (b :: bs) := by
  obtain ⟨f, hmono, hf⟩ := h
  refine ⟨fun i => if i = 0 then none else f (i - 1), ?_, ?_⟩
  · intro i j p q hij hp hq
    simp only at hp hq
    split_ifs at hp hq
    exact hmono (i - 1) (j - 1) p q (by omega) hp hq
  · intro i c hc
    cases i with
    | zero =>
      obtain rfl : b = c := by simpa using hc
      exact .inr hb
    | succ i => exact hf i c (by simpa using hc)

theorem MatchedInOrder.cons (h : MatchedInOrder r exempt as bs) {a : α} {b : β} (hab : r a b = true) (x : List α) :
    MatchedInOrder r exempt (x ++ a :: as) (b :: bs) := by
  obtain ⟨f, hmono, hf⟩ := h
  refine ⟨fun i => if i = 0 then some x.length else (f (i - 1)).map (x.length + 1 + ·), ?_, ?_⟩
  · intro i j p q hij hp hq
    simp only at hp hq
    rw [if_neg (by omega)] at hq
    obtain ⟨q', hq', rfl⟩ := Option.map_eq_some_iff.mp hq
    split_ifs at hp with hi
    · obtain rfl := Option.some.inj hp
      omega
    · obtain ⟨p', hp', rfl⟩ := Option.map_eq_some_iff.mp hp
      have := hmono (i - 1) (j - 1) p' q' (by omega) hp' hq'
      omega
  · intro i c hc
    cases i with
    | zero =>
      obtain rfl : b = c := by simpa using hc
      exact .inl ⟨x.length, a, rfl, by simp, hab⟩
    | succ i =>
      refine (hf i c (by simpa using hc)).imp_left ?_
      intro ⟨q, d, hq, hd, hdc⟩
      refine ⟨x.length + 1 + q, d, by simp [hq], ?_, hdc⟩
      rw [getElem?_append_right (by omega), show x.length + 1 + q - x.length = q + 1 by omega,
        getElem?_cons_succ]
      exact hd

theorem Embeds.matchedInOrder (h : Embeds r (bs.filter fun b => !exempt b) as) : MatchedInOrder r exempt as bs := by
  induction bs generalizing as with
  | nil => exact ⟨fun _ => none, by simp, by simp⟩
  | cons b bs ih =>
    cases hb : exempt b with
    | true =>
      rw [filter_cons, if_neg (by simp [hb])] at h
      exact (ih h).skip hb
    | false =>
      rw [filter_cons, if_pos (by simp [hb])] at h
      obtain ⟨l, hr, hl⟩ := sublistForall₂_iff.mp h
      cases hr with
      | @cons _ a _ l hab hr =>
        obtain ⟨s, t, rfl, ha, hlt⟩ := cons_sublist_iff.mp hl
        obtain ⟨x, u, rfl⟩ := append_of_mem ha
        have hrest : Embeds r (bs.filter fun b => !exempt b) (u ++ t) :=
          sublistForall₂_iff.mpr ⟨l, hr, hlt.trans (sublist_append_right u t)⟩
        rw [append_assoc, cons_append]
        exact (ih hrest).cons hab x

theorem matchedInOrder_iff : MatchedInOrder r exempt as bs ↔ Embeds r (bs.filter fun b => !exempt b) as :=
  ⟨MatchedInOrder.embeds, Embeds.matchedInOrder⟩

end ContextProxy
