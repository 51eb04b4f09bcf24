import Mathlib.Data.List.Sort
import Mathlib.Data.Prod.Lex
import Mathlib.Logic.Equiv.Basic

/-!
# Ranked entries

A dict is the list of its entries in the order in which the keys came. What a dict of ranked entries holds, and a ranked list that is cut to a length, does not depend on the order of entries of one rank, as long as the cut does not fall between two of them (`Decided`).
-/

namespace ContextProxy

open List hiding set

/-! ### Dicts -/

namespace Dict

variable {K V : Type} [DecidableEq K]

/-- `dict[key] = value`: a key that is there keeps its place. -/
def set (key : K) (value : V) : List (K × V) → List (K × V)
  | [] => [(key, value)]
  | entry :: dict => if entry.1 = key then (key, value) :: dict else entry :: set key value dict

/-- `dict.update(entries)`. -/
def update (dict entries : List (K × V)) : List (K × V) :=
  entries.foldl (fun dict entry => set entry.1 entry.2 dict) dict

def ofList (entries : List (K × V)) : List (K × V) := update [] entries

theorem lookup_cons (entry : K × V) (dict : List (K × V)) (k : K) :
    (entry :: dict).lookup k = if k = entry.1 then some entry.2 else dict.lookup k := by
  by_cases h : k = entry.1
  · rw [List.lookup_cons, beq_iff_eq.mpr h, if_pos h]
  · rw [List.lookup_cons, beq_false_of_ne h, if_neg h]

theorem lookup_set (key : K) (value : V) (dict : List (K × V)) (k : K) :
    (set key value dict).lookup k = if k = key then some value else dict.lookup k := by
  induction dict with
  | nil => exact lookup_cons (key, value) [] k
  | cons entry dict ih =>
    rw [set]
    split
    · rename_i hkey
      rw [lookup_cons, lookup_cons, hkey]
      by_cases hk : k = key
      · rw [if_pos hk, if_pos hk]
      · rw [if_neg hk, if_neg hk, if_neg hk]
    · rename_i hkey
      rw [lookup_cons, lookup_cons, ih]
      by_cases hk : k = entry.1
      · rw [if_pos hk, if_pos hk, if_neg (hk ▸ hkey)]
      · rw [if_neg hk, if_neg hk]

variable {dict entries : List (K × V)} {k key : K} {entry : K × V}

theorem mem_keys_set {value : V} : k ∈ (set key value dict).map Prod.fst ↔ k = key ∨ k ∈ dict.map Prod.fst := by
  induction dict with
  | nil => simp [set]
  | cons entry dict ih =>
    rw [set]
    split
    · rename_i hkey
      simp [hkey]
    · simp only [map_cons, mem_cons, ih]
      exact or_left_comm

theorem keys_set_of_mem (value : V) (h : key ∈ dict.map Prod.fst) :
    (set key value dict).map Prod.fst = dict.map Prod.fst := by
  induction dict with
  | nil => simp at h
  | cons entry dict ih =>
    rw [set]
    split
    · rename_i hkey
      rw [map_cons, map_cons, hkey]
    · rename_i hkey
      rw [map_cons, map_cons, ih]
      exact (mem_cons.mp h).resolve_left (Ne.symm hkey)

theorem nodup_keys_set (key : K) (value : V) (h : (dict.map Prod.fst).Nodup) :
    ((set key value dict).map Prod.fst).Nodup := by
  induction dict with
  | nil => exact nodup_singleton key
  | cons entry dict ih =>
    rw [map_cons, nodup_cons] at h
    rw [set]
    split
    · rename_i hkey
      rw [map_cons, nodup_cons]
      exact ⟨hkey ▸ h.1, h.2⟩
    · rename_i hkey
      rw [map_cons, nodup_cons]
      refine ⟨fun hmem => ?_, ih h.2⟩
      rcases mem_keys_set.mp hmem with heq | hmem
      · exact hkey heq
      · exact h.1 hmem

theorem nodup_keys_update (entries : List (K × V)) (h : (dict.map Prod.fst).Nodup) :
    ((update dict entries).map Prod.fst).Nodup := by
  induction entries generalizing dict with
  | nil => exact h
  | cons entry entries ih => exact ih (nodup_keys_set entry.1 entry.2 h)

theorem exists_set_eq (key : K) (dict : List (K × V)) :
    ∃ before after, ∀ value, set key value dict = before ++ (key, value) :: after := by
  induction dict with
  | nil => exact ⟨[], [], fun _ => rfl⟩
  | cons entry dict ih =>
    obtain ⟨before, after, h⟩ := ih
    by_cases hkey : entry.1 = key
    · exact ⟨[], dict, fun value => if_pos hkey⟩
    · refine ⟨entry :: before, after, fun value => ?_⟩
      rw [set, if_neg hkey, h]
      rfl

theorem exists_set_append (hne : key ≠ k) (value : V) (before after : List (K × V)) :
    ∃ before' after', ∀ v, set key value (before ++ (k, v) :: after) = before' ++ (k, v) :: after' := by
  induction before with
  | nil =>
    refine ⟨[], set key value after, fun v => ?_⟩
    rw [nil_append, set, if_neg (Ne.symm hne)]
    rfl
  | cons entry before ih =>
    obtain ⟨before', after', h⟩ := ih
    by_cases hkey : entry.1 = key
    · exact ⟨(key, value) :: before, after, fun v => if_pos hkey⟩
    · refine ⟨entry :: before', after', fun v => ?_⟩
      rw [cons_append, set, if_neg hkey, h]
      rfl

theorem exists_update_eq (dict entries rest : List (K × V)) (hrest : k ∉ rest.map Prod.fst) :
    ∃ before after, ∀ v, update dict (entries ++ (k, v) :: rest) = before ++ (k, v) :: after := by
  have hafter : ∀ (rest : List (K × V)) (before after : List (K × V)), k ∉ rest.map Prod.fst →
      ∃ before' after', ∀ v, update (before ++ (k, v) :: after) rest = before' ++ (k, v) :: after' := by
    intro rest
    induction rest with
    | nil => exact fun before after _ => ⟨before, after, fun _ => rfl⟩
    | cons entry rest ih =>
      intro before after hkeys
      rw [map_cons, mem_cons, not_or] at hkeys
      obtain ⟨before', after', hset⟩ := exists_set_append (Ne.symm hkeys.1) entry.2 before after
      obtain ⟨before'', after'', hupdate⟩ := ih before' after' hkeys.2
      refine ⟨before'', after'', fun v => ?_⟩
      rw [← hupdate v, ← hset v]
      rfl
  obtain ⟨before, after, hset⟩ := exists_set_eq k (update dict entries)
  obtain ⟨before', after', hupdate⟩ := hafter rest before after hrest
  refine ⟨before', after', fun v => ?_⟩
  rw [← hupdate v, ← hset v, update, foldl_append]
  rfl

theorem mem_of_mem_set {value : V} (h : entry ∈ set key value dict) : entry = (key, value) ∨ entry ∈ dict := by
  induction dict with
  | nil => exact .inl (mem_singleton.mp h)
  | cons first dict ih =>
    rw [set] at h
    split at h
    · exact (mem_cons.mp h).imp_right (mem_cons_of_mem _)
    · rcases mem_cons.mp h with rfl | h
      · exact .inr mem_cons_self
      · exact (ih h).imp_right (mem_cons_of_mem _)

theorem mem_of_mem_update (h : entry ∈ update dict entries) : entry ∈ entries ∨ entry ∈ dict := by
  induction entries generalizing dict with
  | nil => exact .inr h
  | cons first entries ih =>
    rcases ih h with h | h
    · exact .inl (mem_cons_of_mem _ h)
    · rcases mem_of_mem_set h with rfl | h
      · exact .inl mem_cons_self
      · exact .inr h

theorem mem_of_mem_ofList (h : entry ∈ ofList entries) : entry ∈ entries :=
  (mem_of_mem_update h).resolve_right not_mem_nil

theorem nodup_keys_ofList (entries : List (K × V)) : ((ofList entries).map Prod.fst).Nodup :=
  nodup_keys_update entries nodup_nil

theorem lookup_update (dict entries : List (K × V)) (k : K) :
    (update dict entries).lookup k = (entries.reverse.lookup k).or (dict.lookup k) := by
  induction entries generalizing dict with
  | nil => rfl
  | cons entry entries ih =>
    change (update (set entry.1 entry.2 dict) entries).lookup k = _
    rw [ih, lookup_set, reverse_cons, lookup_append, Option.or_assoc, lookup_cons]
    by_cases hk : k = entry.1
    · rw [if_pos hk, if_pos hk, Option.some_or]
    · rw [if_neg hk, if_neg hk, lookup_nil, Option.none_or]

theorem lookup_ofList (entries : List (K × V)) (k : K) : (ofList entries).lookup k = entries.reverse.lookup k := by
  rw [ofList, lookup_update, lookup_nil, Option.or_none]

theorem mem_iff_lookup (h : (dict.map Prod.fst).Nodup) {v : V} : (k, v) ∈ dict ↔ dict.lookup k = some v := by
  induction dict with
  | nil => simp
  | cons entry dict ih =>
    rw [map_cons, nodup_cons] at h
    rw [mem_cons, lookup_cons, ih h.2]
    by_cases hk : k = entry.1
    · rw [if_pos hk, Option.some.injEq]
      refine ⟨fun hmem => ?_, fun hv => .inl (by rw [hk, ← hv])⟩
      rcases hmem with rfl | hlookup
      · rfl
      · have hmem := mem_map_of_mem (f := Prod.fst) ((ih h.2).mpr hlookup)
        exact absurd (hk ▸ hmem) h.1
    · rw [if_neg hk]
      refine ⟨fun hmem => ?_, .inr⟩
      rcases hmem with rfl | hlookup
      · exact absurd rfl hk
      · exact hlookup

theorem lookup_update_of_nodup (dict : List (K × V)) (h : (entries.map Prod.fst).Nodup) (k : K) :
    (update dict entries).lookup k = (entries.lookup k).or (dict.lookup k) := by
  have hreverse : (entries.reverse.map Prod.fst).Nodup := by
    rw [map_reverse]
    exact nodup_reverse.mpr h
  have hlookup : entries.reverse.lookup k = entries.lookup k := by
    ext v
    rw [← mem_iff_lookup hreverse, mem_reverse, mem_iff_lookup h]
  rw [lookup_update, hlookup]

theorem lookup_isSome_iff : (dict.lookup k).isSome ↔ k ∈ dict.map Prod.fst := by
  induction dict with
  | nil => simp
  | cons entry dict ih =>
    rw [lookup_cons, map_cons, mem_cons, ← ih]
    by_cases hk : k = entry.1
    · simp [hk]
    · simp [hk]

theorem perm_of_lookup {dict' : List (K × V)} (h : (dict.map Prod.fst).Nodup) (h' : (dict'.map Prod.fst).Nodup)
    (hlookup : ∀ k, dict.lookup k = dict'.lookup k) : dict.Perm dict' := by
  apply (perm_ext_iff_of_nodup h.of_map h'.of_map).mpr
  rintro ⟨k, v⟩
  rw [mem_iff_lookup h, mem_iff_lookup h', hlookup]

/-! ### Dicts of ranked entries -/

variable {R : Type} [LinearOrder R] {rank : V → R} {entries entries' : List (K × V)}

/-- Under a key, a dict of ranked entries holds the one of the greatest rank. -/
theorem lookup_ofList_of_ranked (hranked : entries.Pairwise fun a b => rank a.2 ≤ rank b.2)
    (hinj : ∀ k v w, (k, v) ∈ entries → (k, w) ∈ entries → rank v = rank w → v = w) {v : V} :
    (ofList entries).lookup k = some v ↔ (k, v) ∈ entries ∧ ∀ w, (k, w) ∈ entries → rank w ≤ rank v := by
  have hgreatest : ∀ v, (ofList entries).lookup k = some v →
      (k, v) ∈ entries ∧ ∀ w, (k, w) ∈ entries → rank w ≤ rank v := by
    intro v hv
    rw [lookup_ofList, lookup_eq_some_iff] at hv
    obtain ⟨later, earlier, hsplit, hlater⟩ := hv
    rw [reverse_eq_iff, reverse_append, reverse_cons, append_assoc] at hsplit
    rw [hsplit, pairwise_append] at hranked
    refine ⟨by simp [hsplit], fun w hw => ?_⟩
    rw [hsplit, mem_append, singleton_append, mem_cons] at hw
    rcases hw with hw | hw | hw
    · exact hranked.2.2 _ hw (k, v) (by simp)
    · cases hw
      exact le_rfl
    · have hne := hlater _ (mem_reverse.mp hw)
      simp at hne
  refine ⟨hgreatest v, fun ⟨hmem, hmax⟩ => ?_⟩
  have hkey : k ∈ (ofList entries).map Prod.fst := by
    rw [← lookup_isSome_iff, lookup_ofList, lookup_isSome_iff]
    exact mem_map_of_mem (f := Prod.fst) (mem_reverse.mpr hmem)
  obtain ⟨w, hw⟩ := Option.isSome_iff_exists.mp (lookup_isSome_iff.mpr hkey)
  obtain ⟨hmem', hmax'⟩ := hgreatest w hw
  rw [hw, hinj k w v hmem' hmem (le_antisymm (hmax w hmem') (hmax' v hmem))]

theorem lookup_ofList_congr (hperm : entries.Perm entries') (hranked : entries.Pairwise fun a b => rank a.2 ≤ rank b.2)
    (hranked' : entries'.Pairwise fun a b => rank a.2 ≤ rank b.2)
    (hinj : ∀ k v w, (k, v) ∈ entries → (k, w) ∈ entries → rank v = rank w → v = w) (k : K) :
    (ofList entries).lookup k = (ofList entries').lookup k := by
  ext v
  rw [lookup_ofList_of_ranked hranked hinj, lookup_ofList_of_ranked hranked']
  · simp only [hperm.mem_iff]
  · intro k v w hv hw
    exact hinj k v w (hperm.mem_iff.mpr hv) (hperm.mem_iff.mpr hw)

end Dict

/-! ### Cuts of a ranked list -/

section Cut

variable {α R T : Type} [LinearOrder R] [LinearOrder T]

variable {f : α → R}

/-- The sort is stable: entries of one rank stay in the order in which they came. -/
theorem pairwise_insertionSort_lex {g : α → T} {l : List α} (h : l.Pairwise fun a b => g a ≤ g b) :
    (l.insertionSort fun a b => f a ≤ f b).Pairwise fun a b => toLex (f a, g a) ≤ toLex (f b, g b) := by
  induction l with
  | nil => exact .nil
  | cons a l ih =>
    rw [pairwise_cons] at h
    have hinsert : ∀ s : List α, (∀ b ∈ s, g a ≤ g b) → (s.Pairwise fun a b => toLex (f a, g a) ≤ toLex (f b, g b)) →
        (s.orderedInsert (fun a b => f a ≤ f b) a).Pairwise fun a b => toLex (f a, g a) ≤ toLex (f b, g b) := by
      intro s
      induction s with
      | nil => simp
      | cons b s ihs =>
        intro hg hs
        rw [List.orderedInsert]
        split
        · rename_i hab
          refine pairwise_cons.mpr ⟨fun c hc => ?_, hs⟩
          -- `a` came first, so its rank decides, and where the ranks agree its place
          have hbc : f b ≤ f c := by
            rcases mem_cons.mp hc with rfl | hc
            · exact le_rfl
            · exact Prod.Lex.monotone_fst _ _ ((pairwise_cons.mp hs).1 c hc)
          apply Prod.Lex.toLex_le_toLex.mpr
          exact (hab.trans hbc).lt_or_eq.imp_right fun heq => ⟨heq, hg c hc⟩
        · rename_i hab
          refine pairwise_cons.mpr ⟨fun c hc => ?_, ihs (fun c hc => hg c (mem_cons_of_mem _ hc)) hs.of_cons⟩
          rcases (mem_orderedInsert _).mp hc with rfl | hc
          · exact Prod.Lex.toLex_le_toLex.mpr (.inl (not_le.mp hab))
          · exact (pairwise_cons.mp hs).1 c hc
    exact hinsert _ (fun b hb => h.1 b ((mem_insertionSort _).mp hb)) (ih h.2)

theorem filter_orderedInsert (a : α) {l : List α} (hl : l.Pairwise fun a b => f a ≤ f b) (p : α → Bool) :
    (l.orderedInsert (fun a b => f a ≤ f b) a).filter p =
      if p a then (l.filter p).orderedInsert (fun a b => f a ≤ f b) a else l.filter p := by
  induction l with
  | nil => simp [filter_cons]
  | cons b l ih =>
    obtain ⟨hb, hl⟩ := pairwise_cons.mp hl
    rw [orderedInsert_cons]
    by_cases hab : f a ≤ f b
    · -- `a` is in front of `b` and of all that follows it
      have hfront : ((b :: l).filter p).orderedInsert (fun a b => f a ≤ f b) a = a :: (b :: l).filter p := by
        cases hrest : (b :: l).filter p with
        | nil => rfl
        | cons c rest =>
          have hc : c ∈ b :: l := mem_of_mem_filter (hrest ▸ mem_cons_self)
          rw [orderedInsert_cons, if_pos]
          rcases mem_cons.mp hc with rfl | hc
          · exact hab
          · exact hab.trans (hb c hc)
      rw [if_pos hab, filter_cons, hfront]
    · rw [if_neg hab, filter_cons, filter_cons, ih hl]
      by_cases hpb : p b = true
      · rw [if_pos hpb, if_pos hpb]
        split
        · rw [orderedInsert_cons, if_neg hab]
        · rfl
      · rw [if_neg hpb, if_neg hpb]

theorem filter_insertionSort (f : α → R) (p : α → Bool) (l : List α) :
    (l.insertionSort fun a b => f a ≤ f b).filter p = (l.filter p).insertionSort fun a b => f a ≤ f b := by
  induction l with
  | nil => rfl
  | cons a l ih =>
    rw [insertionSort_cons, filter_orderedInsert a (pairwise_insertionSort _ l), ih, filter_cons]
    split
    · rw [insertionSort_cons]
    · rfl

variable {rank : α → R} {l l' : List α} {n : ℕ}

theorem filter_lt_eq_take (h : l.Pairwise fun a b => rank a ≤ rank b) (r : R) :
    l.filter (fun a => rank a < r) = l.take (l.countP fun a => rank a < r) := by
  induction l with
  | nil => rfl
  | cons a l ih =>
    rw [pairwise_cons] at h
    by_cases ha : rank a < r
    · rw [filter_cons_of_pos (by simpa using ha), countP_cons_of_pos (by simpa using ha), take_succ_cons,
        ih h.2]
    · have hnone : ∀ b ∈ a :: l, ¬rank b < r := by
        intro b hb hlt
        rcases mem_cons.mp hb with rfl | hb
        · exact ha hlt
        · exact ha ((h.1 b hb).trans_lt hlt)
      rw [filter_eq_nil_iff.mpr (by simpa using hnone), countP_eq_zero.mpr (by simpa using hnone), take_zero]

/-- The first `n` entries can be told from the rest by their ranks. -/
def Decided (rank : α → R) (n : ℕ) (l : List α) : Prop :=
  ∀ a ∈ l, l.countP (fun b => rank b ≤ rank a) ≤ n ∨ n ≤ l.countP fun b => rank b < rank a

section Counts

variable {front back : List α} {a : α} {p : α → Bool}

theorem countP_le_of_not (h : (front ++ a :: back).Pairwise fun a b => rank a ≤ rank b)
    (hp : ∀ b c, rank b ≤ rank c → p c = true → p b = true) (ha : ¬p a = true) :
    (front ++ a :: back).countP p ≤ front.length := by
  have hback : (a :: back).countP p = 0 := by
    apply countP_eq_zero.mpr
    intro b hb hpb
    rcases mem_cons.mp hb with rfl | hb
    · exact ha hpb
    · exact ha (hp a b ((pairwise_cons.mp (pairwise_append.mp h).2.1).1 b hb) hpb)
  rw [countP_append, hback, Nat.add_zero]
  exact countP_le_length

theorem lt_countP_of (h : (front ++ a :: back).Pairwise fun a b => rank a ≤ rank b)
    (hp : ∀ b c, rank b ≤ rank c → p c = true → p b = true) (ha : p a = true) :
    front.length < (front ++ a :: back).countP p := by
  have hfront : front.countP p = front.length := by
    apply countP_eq_length.mpr
    intro b hb
    exact hp b a ((pairwise_append.mp h).2.2 b hb a mem_cons_self) ha
  rw [countP_append, hfront, countP_cons_of_pos ha]
  omega

end Counts

theorem exists_split_of_lt (h : n < l.length) : ∃ front a back, l = front ++ a :: back ∧ front.length = n :=
  ⟨l.take n, l[n], l.drop (n + 1), by rw [getElem_cons_drop, take_append_drop], by
    rw [length_take]
    omega⟩

theorem Decided.perm (h : Decided rank n l) (hperm : l.Perm l') : Decided rank n l' := by
  intro a ha
  rw [← hperm.countP_eq, ← hperm.countP_eq]
  exact h a (hperm.mem_iff.mpr ha)

/-- Where ranks decide, the first `n` entries are the same whatever the order was. -/
theorem Decided.take_perm (h : Decided rank n l) (hperm : l.Perm l') (hl : l.Pairwise fun a b => rank a ≤ rank b)
    (hl' : l'.Pairwise fun a b => rank a ≤ rank b) : (l.take n).Perm (l'.take n) := by
  by_cases hn : n < l.length
  · obtain ⟨front, a, back, rfl, rfl⟩ := exists_split_of_lt hn
    have hbelow : (front ++ a :: back).countP (fun b => rank b < rank a) ≤ front.length := by
      apply countP_le_of_not hl
      · intro b c hbc hc
        exact decide_eq_true (hbc.trans_lt (of_decide_eq_true hc))
      · simp
    have hwithin : front.length < (front ++ a :: back).countP fun b => rank b ≤ rank a := by
      apply lt_countP_of hl
      · intro b c hbc hc
        exact decide_eq_true (hbc.trans (of_decide_eq_true hc))
      · simp
    have hcount : (front ++ a :: back).countP (fun b => rank b < rank a) = front.length := by
      have := h a (by simp)
      omega
    have htake := filter_lt_eq_take hl (rank a)
    have htake' := filter_lt_eq_take hl' (rank a)
    rw [hcount] at htake
    rw [← hperm.countP_eq, hcount] at htake'
    rw [← htake, ← htake']
    exact hperm.filter _
  · rw [take_of_length_le (by omega), take_of_length_le (by rw [← hperm.length_eq]; omega)]
    exact hperm

/-- Where ranks do not decide, the cut falls between two entries of one rank. -/
theorem exists_tie_of_not_decided (h : ¬Decided rank n l) (hl : l.Pairwise fun a b => rank a ≤ rank b) :
    ∃ front a b back, l = front ++ a :: b :: back ∧ front.length + 1 = n ∧ rank a = rank b := by
  simp only [Decided, not_forall, not_or, not_le] at h
  obtain ⟨c, hc, hwithin, hbelow⟩ := h
  have hlength : l.countP (fun b => rank b ≤ rank c) ≤ l.length := countP_le_length
  obtain ⟨front, a, rest, hsplit, hfront⟩ := exists_split_of_lt (l := l) (n := n - 1) (by omega)
  obtain ⟨b, back, rfl⟩ : ∃ b back, rest = b :: back := by
    apply exists_cons_of_length_pos
    have := congrArg List.length hsplit
    rw [length_append, length_cons] at this
    omega
  subst hsplit
  refine ⟨front, a, b, back, rfl, by omega, ?_⟩
  have hca : rank c ≤ rank a := by
    by_contra hlt
    have := lt_countP_of (p := fun b => decide (rank b < rank c)) hl
      (fun x y hxy hy => decide_eq_true (hxy.trans_lt (of_decide_eq_true hy))) (decide_eq_true (not_le.mp hlt))
    omega
  have hbc : rank b ≤ rank c := by
    by_contra hlt
    have hsplit : front ++ a :: b :: back = (front ++ [a]) ++ b :: back := by simp
    rw [hsplit] at hl hwithin
    have := countP_le_of_not (p := fun b => decide (rank b ≤ rank c)) hl
      (fun x y hxy hy => decide_eq_true (hxy.trans (of_decide_eq_true hy))) (by simpa using hlt)
    rw [length_append, length_singleton] at this
    omega
  have hab : rank a ≤ rank b := (pairwise_cons.mp (pairwise_append.mp hl).2.1).1 b mem_cons_self
  exact le_antisymm hab (hbc.trans hca)

/-! ### Exchanging two entries -/

variable {β : Type} [DecidableEq α] [DecidableEq β] {a b : α}

theorem perm_map_swap (hl : l.Nodup) (ha : a ∈ l) (hb : b ∈ l) : (l.map (Equiv.swap a b)).Perm l := by
  have hmem : ∀ x, Equiv.swap a b x ∈ l ↔ x ∈ l := by
    intro x
    have hsame : (a ∈ l) = (b ∈ l) := propext (iff_of_true ha hb)
    exact Iff.of_eq (Equiv.apply_swap_eq_self (v := (· ∈ l)) hsame x)
  apply (perm_ext_iff_of_nodup (hl.map (Equiv.swap a b).injective) hl).mpr
  intro x
  rw [← hmem x, mem_map]
  refine ⟨fun ⟨y, hy, hyx⟩ => ?_, fun hx => ⟨_, hx, Equiv.swap_apply_self a b x⟩⟩
  rw [← hyx, Equiv.swap_apply_self]
  exact hy

theorem map_filter_swap {p : α → Bool} {f : α → β} (hpa : p a = true) (hpb : p b = true)
    (hinj : ∀ x ∈ l, ∀ y ∈ l, f x = f y → x = y) (ha : a ∈ l) (hb : b ∈ l) :
    ((l.map (Equiv.swap a b)).filter p).map f = ((l.filter p).map f).map (Equiv.swap (f a) (f b)) := by
  have hp : p ∘ Equiv.swap a b = p := by
    funext x
    exact Equiv.apply_swap_eq_self (hpa.trans hpb.symm) x
  rw [filter_map, hp, map_map, map_map]
  apply map_congr_left
  intro x hx
  have hxl := (mem_filter.mp hx).1
  rw [Function.comp_apply, Function.comp_apply]
  by_cases hxa : x = a
  · rw [hxa, Equiv.swap_apply_left, Equiv.swap_apply_left]
  · by_cases hxb : x = b
    · rw [hxb, Equiv.swap_apply_right, Equiv.swap_apply_right]
    · rw [Equiv.swap_apply_of_ne_of_ne hxa hxb, Equiv.swap_apply_of_ne_of_ne]
      · exact fun h => hxa (hinj x hxl a ha h)
      · exact fun h => hxb (hinj x hxl b hb h)

theorem map_swap_of_notMem (ha : a ∉ l) (hb : b ∉ l) : l.map (Equiv.swap a b) = l := by
  apply (map_congr_left fun x hx => ?_).trans (map_id l)
  exact Equiv.swap_apply_of_ne_of_ne (fun h => ha (h ▸ hx)) fun h => hb (h ▸ hx)

theorem insertionSort_map_swap {front back : List α} (hl : l.Nodup)
    (hsort : (l.insertionSort fun x y => f x ≤ f y) = front ++ a :: b :: back) (hab : f a = f b) :
    ((l.map (Equiv.swap a b)).insertionSort fun x y => f x ≤ f y) = front ++ b :: a :: back := by
  have hf : ∀ x, f (Equiv.swap a b x) = f x := Equiv.apply_swap_eq_self hab
  have hcommutes : (l.insertionSort fun x y => f x ≤ f y).map (Equiv.swap a b)
      = (l.map (Equiv.swap a b)).insertionSort fun x y => f x ≤ f y := by
    apply map_insertionSort
    intro x _ y _
    rw [hf, hf]
  have hnodup : (front ++ a :: b :: back).Nodup := hsort ▸ (perm_insertionSort _ l).nodup_iff.mpr hl
  simp only [nodup_append, nodup_cons, mem_cons, not_or] at hnodup
  obtain ⟨-, ⟨⟨-, haback⟩, hbback, -⟩, hfront⟩ := hnodup
  rw [← hcommutes, hsort, map_append, map_cons, map_cons, Equiv.swap_apply_left, Equiv.swap_apply_right,
    map_swap_of_notMem (fun h => hfront a h a (.inl rfl) rfl) (fun h => hfront b h b (.inr (.inl rfl)) rfl),
    map_swap_of_notMem haback hbback]

end Cut

end ContextProxy
