import ContextProxy.Context.Interactions
import ContextProxy.Memory.Chunking
import Mathlib.Data.List.TakeWhile

/-!
# Chunks and interaction units

The history is cut twice: by `_chunk_new_turns`, which drops the rows of role `system` and cuts at user messages, and by `segment_messages`, which takes out both kinds of instructions and, before the first user message, cuts at them as well. From the first user message on, a piece of the second is one of the first without its developer messages (`interactions_eq_strip`); before it, the first has one piece and the second one for each stretch.

So the pieces are the same exactly if no developer message comes before a user message and nothing but one stretch before the first one (`SameCut`).
-/

namespace ContextProxy

open Json
open List hiding get

namespace MessageRow

def Labelled (row : MessageRow) : Prop := get row.content "role" = .str row.role

def instructs (row : MessageRow) : Bool := row.role = "system" || row.role = "developer"

theorem Labelled.isInstruction {row : MessageRow} (h : row.Labelled) :
    ContextProxy.isInstruction row.content = row.instructs := by
  rw [Labelled] at h
  rw [ContextProxy.isInstruction, h, instructs]
  simp

theorem Labelled.isUser {row : MessageRow} (h : row.Labelled) :
    ContextProxy.isUser row.content = decide (row.role = "user") := by
  rw [Labelled] at h
  rw [ContextProxy.isUser, h, Bool.eq_iff_iff, pyEq_str_iff]
  simp

end MessageRow

/-- Before the first user message there is at most one stretch of messages that are no instructions. -/
def OnePrefill (messages : List MessageRow) : Bool :=
  (((messages.takeWhile (·.role ≠ "user")).dropWhile (·.instructs)).dropWhile (!·.instructs)).all (·.instructs)

/-- The condition under which both cuts give the same pieces. -/
structure SameCut (messages : List MessageRow) : Prop where
  prefill : OnePrefill messages = true
  developer : messages.Pairwise fun a b => a.role = "developer" → b.role ≠ "user"

/-! ### Cutting at the first user message -/

theorem Interactions.foldl_closed (closed : List (List Message)) (st : Interactions) (messages : List Message) :
    messages.foldl step { st with closed := closed ++ st.closed }
      = { messages.foldl step st with closed := closed ++ (messages.foldl step st).closed } := by
  induction messages generalizing st with
  | nil => rfl
  | cons m messages ih =>
    have hstep : step { st with closed := closed ++ st.closed } m
        = { st.step m with closed := closed ++ (st.step m).closed } := by
      simp only [step, close]
      split_ifs <;> simp
    rw [foldl_cons, hstep, ih (st.step m), foldl_cons]

theorem interactions_append_user (older : List Message) {m : Message} (hm : isUser m = true)
    (hinstruction : isInstruction m = false) (newer : List Message) :
    interactions (older ++ m :: newer) = interactions older ++ interactions (m :: newer) := by
  have hstep : ∀ st : Interactions, st.step m = ⟨st.close, [m], true⟩ := by
    intro st
    simp [Interactions.step, hm, hinstruction]
  have hfold := Interactions.foldl_closed (older.foldl Interactions.step {}).close ⟨[], [m], true⟩ newer
  rw [append_nil] at hfold
  rw [interactions, foldl_append, foldl_cons, hstep, hfold, interactions, interactions, foldl_cons, hstep]
  simp only [Interactions.close]
  split_ifs <;> simp

variable {row : MessageRow} {rows : List MessageRow}

theorem turnUnits_append_user (older : List MessageRow) (hrow : row.role = "user") (newer : List MessageRow) :
    turnUnits (older ++ row :: newer) = turnUnits older ++ turnUnits (row :: newer) := by
  have hshaped : Shaped (turnUnits older ++ turnUnits (row :: newer)) := by
    have hold := shaped_turnUnits older
    have hnew := shaped_turnUnits (row :: newer)
    refine ⟨fun unit hunit => (mem_append.mp hunit).elim (hold.rest unit) (hnew.rest unit), ?_⟩
    -- the first unit of the second part starts with the user message
    have hfirst : ∀ unit ∈ turnUnits (row :: newer), unit.first.role = "user" := by
      intro unit hunit
      cases hunits : turnUnits (row :: newer) with
      | nil => simp [hunits] at hunit
      | cons head units =>
        have hrows := rows_turnUnits (row :: newer)
        rw [hunits, flatMap_cons] at hrows
        have hhead : head.first = row := (List.cons.inj hrows).1
        rw [hunits] at hunit hnew
        rcases mem_cons.mp hunit with rfl | hunit
        · rw [hhead, hrow]
        · exact hnew.first unit hunit
    intro unit hunit
    cases hunits : turnUnits older with
    | nil =>
      rw [hunits, nil_append] at hunit
      exact hfirst unit (mem_of_mem_tail hunit)
    | cons head units =>
      rw [hunits] at hunit hold
      rcases mem_append.mp hunit with hunit | hunit
      · exact hold.first unit hunit
      · exact hfirst unit hunit
  have hrows := turnUnits_rows hshaped
  rwa [flatMap_append, rows_turnUnits, rows_turnUnits] at hrows

/-! ### From the first user message on -/

def contents (rows : List MessageRow) : List Message := rows.map (·.content)

def TurnUnit.strip (unit : TurnUnit) : List Message := contents (unit.rows.filter (·.role ≠ "developer"))

theorem TurnUnit.strip_concat (unit : TurnUnit) (row : MessageRow) :
    ({ unit with rest := unit.rest ++ [row] } : TurnUnit).strip
      = unit.strip ++ if row.role = "developer" then [] else [row.content] := by
  have hrows : ({ unit with rest := unit.rest ++ [row] } : TurnUnit).rows = unit.rows ++ [row] := rfl
  rw [strip, hrows, filter_append, contents, map_append, strip, contents]
  by_cases hrow : row.role = "developer"
  · simp [hrow]
  · simp [hrow]

theorem spokenRows_concat (rows : List MessageRow) (row : MessageRow) :
    spokenRows (rows ++ [row]) = spokenRows rows ++ if row.role = "system" then [] else [row] := by
  rw [spokenRows, filter_append, spokenRows]
  by_cases hrow : row.role = "system"
  · simp [hrow]
  · simp [hrow]

/-- The grouping stands where the cut stands, up to developer messages. -/
structure Strips (it : Interactions) (units : List TurnUnit) (last : TurnUnit) : Prop where
  closed : it.closed = units.map (·.strip)
  current : it.current = last.strip
  started : it.started = true
  user : last.first.role = "user"

variable {it : Interactions} {units : List TurnUnit}

theorem Strips.close {last : TurnUnit} (h : Strips it units last) : it.close = (units ++ [last]).map (·.strip) := by
  have hne : it.current ≠ [] := by
    rw [h.current, TurnUnit.strip, TurnUnit.rows, filter_cons_of_pos (by simp [h.user])]
    exact cons_ne_nil _ _
  rw [Interactions.close, if_neg hne, h.closed, h.current, map_append]
  rfl

/-- One more message: the grouping and the cut move on together. -/
theorem Strips.step {last : TurnUnit} (h : Strips it units last) (hunits : turnUnits rows = units ++ [last])
    {next : MessageRow} (hlabelled : next.Labelled) :
    ∃ units' last', turnUnits (rows ++ if next.role = "system" then [] else [next]) = units' ++ [last'] ∧
      Strips (it.step next.content) units' last' := by
  rw [Interactions.step, hlabelled.isInstruction, hlabelled.isUser, h.started]
  by_cases hsystem : next.role = "system"
  · -- a system message is in neither
    refine ⟨units, last, by rw [if_pos hsystem, append_nil, hunits], ?_⟩
    simpa [MessageRow.instructs, hsystem] using h
  · rw [if_neg hsystem]
    rcases turnUnits_concat rows next with ⟨hnil, -⟩ | ⟨before, unit, hbefore, hcases⟩
    · simp [hnil, turnUnits, UnitLoop.close] at hunits
    obtain ⟨rfl, hlast⟩ := append_inj' (hbefore.symm.trans hunits) rfl
    obtain rfl := singleton_inj.mp hlast
    rcases hcases with ⟨huser, hnext⟩ | ⟨huser, hnext⟩
    · refine ⟨before ++ [unit], ⟨next, []⟩, hnext, ?_⟩
      have hquiet : next.instructs = false := by simp [MessageRow.instructs, huser]
      rw [hquiet, if_neg Bool.false_ne_true, decide_eq_true huser, if_pos rfl]
      refine ⟨h.close, ?_, rfl, huser⟩
      simp [TurnUnit.strip, TurnUnit.rows, contents, huser]
    · refine ⟨before, _, hnext, ?_⟩
      by_cases hdeveloper : next.role = "developer"
      · -- a developer message joins the unit and not the group
        have hinstructs : next.instructs = true := by simp [MessageRow.instructs, hdeveloper]
        rw [hinstructs, if_pos rfl, if_pos rfl]
        refine ⟨h.closed, ?_, h.started, h.user⟩
        rw [TurnUnit.strip_concat, if_pos hdeveloper, append_nil, h.current]
      · have hquiet : next.instructs = false := by simp [MessageRow.instructs, hsystem, hdeveloper]
        rw [hquiet, if_neg Bool.false_ne_true, decide_eq_false huser, if_neg Bool.false_ne_true]
        refine ⟨h.closed, ?_, rfl, h.user⟩
        rw [TurnUnit.strip_concat, if_neg hdeveloper, ← h.current]

theorem exists_strips (hrow : row.role = "user") (h : ∀ r ∈ row :: rows, r.Labelled) :
    ∃ units last, turnUnits (spokenRows (row :: rows)) = units ++ [last] ∧
      Strips ((contents (row :: rows)).foldl Interactions.step {}) units last := by
  induction rows using List.reverseRecOn with
  | nil =>
    have hlabelled := h row (mem_cons_self ..)
    have hspoken : spokenRows [row] = [row] := by simp [spokenRows, hrow]
    have hstep : (contents [row]).foldl Interactions.step {} = ⟨[], [row.content], true⟩ := by
      simp [contents, Interactions.step, hlabelled.isInstruction, hlabelled.isUser, MessageRow.instructs, hrow,
        Interactions.close]
    refine ⟨[], ⟨row, []⟩, by rw [hspoken]; rfl, ?_⟩
    rw [hstep]
    refine ⟨rfl, ?_, rfl, hrow⟩
    simp [TurnUnit.strip, TurnUnit.rows, contents, hrow]
  | append_singleton rows next ih =>
    obtain ⟨units, last, hunits, hstrips⟩ := ih fun r hr => h r (by
      rw [← cons_append]
      exact mem_append_left _ hr)
    have hread : (contents (row :: (rows ++ [next]))).foldl Interactions.step {}
        = ((contents (row :: rows)).foldl Interactions.step {}).step next.content := by
      rw [contents, contents, ← cons_append, map_append, foldl_append]
      rfl
    rw [hread, ← cons_append, spokenRows_concat]
    exact hstrips.step hunits (h next (by simp))

/-- From a user message on, the groups are the units without their developer messages. -/
theorem interactions_eq_strip (hrow : row.role = "user") (h : ∀ r ∈ row :: rows, r.Labelled) :
    interactions (contents (row :: rows)) = (turnUnits (spokenRows (row :: rows))).map (·.strip) := by
  obtain ⟨units, last, hunits, hstrips⟩ := exists_strips hrow h
  rw [interactions, hstrips.close, hunits]

/-! ### Before the first user message -/

section Prefill

variable {rows : List MessageRow}

theorem turnUnits_of_quiet (hquiet : ∀ r ∈ rows, r.role ≠ "user") :
    (turnUnits rows).map (fun unit => contents unit.rows) = if rows = [] then [] else [contents rows] := by
  cases rows with
  | nil => rfl
  | cons first rest =>
    have hshaped : Shaped [⟨first, rest⟩] := ⟨by simpa using (forall_mem_cons.mp hquiet).2, by simp⟩
    have hunits := turnUnits_rows hshaped
    rw [flatMap_singleton] at hunits
    rw [show first :: rest = TurnUnit.rows ⟨first, rest⟩ from rfl, hunits]
    rfl

variable {newer : List Message}

theorem interactions_append_instructions {instructions : List Message} (h : ∀ m ∈ instructions, isInstruction m = true) :
    interactions (instructions ++ newer) = interactions newer := by
  have hfold : instructions.foldl Interactions.step {} = {} := by
    induction instructions with
    | nil => rfl
    | cons m instructions ih =>
      obtain ⟨hm, hrest⟩ := forall_mem_cons.mp h
      have hstep : Interactions.step {} m = {} := by simp [Interactions.step, hm, Interactions.close]
      rw [foldl_cons, hstep, ih hrest]
  rw [interactions, foldl_append, hfold, interactions]

theorem interactions_append_stretch {stretch : List Message} (hne : stretch ≠ [])
    (huser : ∀ m ∈ stretch, isUser m = false) (hquiet : ∀ m ∈ stretch, isInstruction m = false)
    (hnewer : ∀ m ∈ newer.head?, isInstruction m = true) :
    interactions (stretch ++ newer) = stretch :: interactions newer := by
  have hfold : stretch.foldl Interactions.step {} = ⟨[], stretch, false⟩ := by
    rw [Interactions.foldl_join {} huser (.inr hquiet), filter_eq_self.mpr fun m hm => by simp [hquiet m hm]]
    rfl
  rw [interactions, foldl_append, hfold]
  cases newer with
  | nil => simp [Interactions.close, hne, interactions]
  | cons m newer =>
    have hm := hnewer m rfl
    have hstep : Interactions.step ⟨[], stretch, false⟩ m = ⟨[stretch] ++ [], [], false⟩ := by
      simp [Interactions.step, hm, Interactions.close, hne]
    have hfresh : Interactions.step {} m = {} := by simp [Interactions.step, hm, Interactions.close]
    have hclosed := Interactions.foldl_closed [stretch] {} newer
    rw [foldl_cons, hstep, hclosed, interactions, foldl_cons, hfresh]
    simp only [Interactions.close]
    split_ifs <;> simp

def firstStretch (rows : List MessageRow) : List MessageRow := (rows.dropWhile (·.instructs)).takeWhile (!·.instructs)

def afterStretch (rows : List MessageRow) : List MessageRow := (rows.dropWhile (·.instructs)).dropWhile (!·.instructs)

theorem split_stretch (rows : List MessageRow) :
    rows = rows.takeWhile (·.instructs) ++ (firstStretch rows ++ afterStretch rows) := by
  rw [firstStretch, afterStretch, takeWhile_append_dropWhile, takeWhile_append_dropWhile]

theorem afterStretch_of_nil (h : firstStretch rows = []) : afterStretch rows = [] := by
  rw [firstStretch] at h
  rw [afterStretch]
  cases hrest : rows.dropWhile (·.instructs) with
  | nil => rfl
  | cons row rest =>
    have hrow : row.instructs = false := by
      have := head?_dropWhile_not (·.instructs) rows
      simpa [hrest] using this
    simp [hrest, hrow] at h

theorem interactions_prefill (h : ∀ r ∈ rows, r.Labelled) (hquiet : ∀ r ∈ rows, r.role ≠ "user") :
    interactions (contents rows) = (if firstStretch rows = [] then [] else [contents (firstStretch rows)])
      ++ interactions (contents (afterStretch rows)) := by
  have hsplit := split_stretch rows
  have hmid : ∀ r ∈ firstStretch rows, r ∈ rows := by
    intro r hr
    rw [hsplit]
    simp [hr]
  have hfront : ∀ m ∈ contents (rows.takeWhile (·.instructs)), isInstruction m = true := by
    intro m hm
    obtain ⟨r, hr, rfl⟩ := mem_map.mp hm
    rw [(h r (takeWhile_subset _ hr)).isInstruction]
    exact mem_takeWhile_imp hr
  have hcontents : contents rows = contents (rows.takeWhile (·.instructs))
      ++ (contents (firstStretch rows) ++ contents (afterStretch rows)) := by
    rw [contents, contents, contents, contents, ← map_append, ← map_append, ← hsplit]
  rw [hcontents, interactions_append_instructions hfront]
  by_cases hnil : firstStretch rows = []
  · rw [if_pos hnil, hnil]
    rfl
  · rw [if_neg hnil]
    apply interactions_append_stretch
    · simpa [contents] using hnil
    · intro m hm
      obtain ⟨r, hr, rfl⟩ := mem_map.mp hm
      rw [(h r (hmid r hr)).isUser]
      exact decide_eq_false (hquiet r (hmid r hr))
    · intro m hm
      obtain ⟨r, hr, rfl⟩ := mem_map.mp hm
      rw [(h r (hmid r hr)).isInstruction]
      simpa using mem_takeWhile_imp hr
    · intro m hm
      cases hafter : afterStretch rows with
      | nil => simp [hafter, contents] at hm
      | cons r rest =>
        have hr : r ∈ rows := by
          rw [hsplit, hafter]
          simp
        obtain rfl : r.content = m := by simpa [hafter, contents] using hm
        rw [(h r hr).isInstruction]
        have hhead := head?_dropWhile_not (!·.instructs) (rows.dropWhile (·.instructs))
        rw [afterStretch] at hafter
        simpa [hafter] using hhead

theorem interactions_eq_nil_iff (h : ∀ r ∈ rows, r.Labelled) :
    interactions (contents rows) = [] ↔ rows.all (·.instructs) = true := by
  constructor
  · intro hnil
    have hflatten := flatten_interactions (contents rows)
    rw [hnil, flatten_nil, eq_comm, filter_eq_nil_iff] at hflatten
    rw [all_eq_true]
    intro r hr
    have hinstruction := hflatten r.content (mem_map_of_mem hr)
    rw [(h r hr).isInstruction] at hinstruction
    simpa using hinstruction
  · intro hall
    rw [← append_nil (contents rows), interactions_append_instructions]
    · rfl
    · intro m hm
      obtain ⟨r, hr, rfl⟩ := mem_map.mp hm
      rw [(h r hr).isInstruction]
      exact all_eq_true.mp hall r hr

theorem mem_of_mem_afterStretch {r : MessageRow} (hr : r ∈ afterStretch rows) : r ∈ rows := by
  rw [split_stretch rows]
  simp [hr]

theorem length_prefill_le_iff (h : ∀ r ∈ rows, r.Labelled) (hquiet : ∀ r ∈ rows, r.role ≠ "user") :
    (interactions (contents rows)).length ≤ 1 ↔ (afterStretch rows).all (·.instructs) = true := by
  rw [interactions_prefill h hquiet, length_append,
    ← interactions_eq_nil_iff fun r hr => h r (mem_of_mem_afterStretch hr)]
  by_cases hnil : firstStretch rows = []
  · rw [afterStretch_of_nil hnil, if_pos hnil]
    simp [contents, interactions, Interactions.close]
  · rw [if_neg hnil, length_singleton, ← length_eq_zero_iff]
    omega

theorem filter_spokenRows (rows : List MessageRow) :
    (spokenRows rows).filter (·.role ≠ "developer") = rows.filter (!·.instructs) := by
  rw [spokenRows, filter_filter]
  apply filter_congr
  intro r _
  simp [MessageRow.instructs, Bool.and_comm]

theorem flatten_interactions_rows (h : ∀ r ∈ rows, r.Labelled) :
    (interactions (contents rows)).flatten = contents (rows.filter (!·.instructs)) := by
  rw [flatten_interactions, contents, filter_map, contents]
  congr 1
  apply filter_congr
  intro r hr
  rw [Function.comp_apply, (h r hr).isInstruction]

theorem filter_eq_firstStretch (h : (afterStretch rows).all (·.instructs) = true) :
    rows.filter (!·.instructs) = firstStretch rows := by
  have hfront : (rows.takeWhile (·.instructs)).filter (!·.instructs) = [] := by
    rw [filter_eq_nil_iff]
    intro r hr
    simpa using mem_takeWhile_imp hr
  have hmid : (firstStretch rows).filter (!·.instructs) = firstStretch rows := by
    rw [filter_eq_self]
    intro r hr
    simpa using mem_takeWhile_imp hr
  have hafter : (afterStretch rows).filter (!·.instructs) = [] := by
    rw [filter_eq_nil_iff]
    intro r hr
    simpa using all_eq_true.mp h r hr
  conv_lhs => rw [split_stretch rows]
  rw [filter_append, filter_append, hfront, hmid, hafter, nil_append, append_nil]

/-- Both cuts agree before the first user message exactly if there is one stretch and no developer message. -/
theorem prefill_eq_iff (h : ∀ r ∈ rows, r.Labelled) (hquiet : ∀ r ∈ rows, r.role ≠ "user") :
    (turnUnits (spokenRows rows)).map (fun unit => contents unit.rows) = interactions (contents rows) ↔
      (afterStretch rows).all (·.instructs) = true ∧ ∀ r ∈ rows, r.role ≠ "developer" := by
  have hspoken : ∀ r ∈ spokenRows rows, r.role ≠ "user" := fun r hr => hquiet r (mem_filter.mp hr).1
  rw [turnUnits_of_quiet hspoken]
  constructor
  · intro heq
    constructor
    · rw [← length_prefill_le_iff h hquiet, ← heq]
      split <;> simp
    · -- both hold the same messages, so that no developer message is among the rows of the first
      have hflatten : contents (spokenRows rows) = contents ((spokenRows rows).filter (·.role ≠ "developer")) := by
        rw [filter_spokenRows, ← flatten_interactions_rows h, ← heq]
        split
        · rename_i hnil
          rw [hnil]
          rfl
        · rw [flatten_singleton]
      have hlength := congrArg List.length hflatten
      rw [contents, contents, length_map, length_map, eq_comm, length_filter_eq_length_iff] at hlength
      intro r hr hdeveloper
      have hmem : r ∈ spokenRows rows := mem_filter.mpr ⟨hr, by simp [hdeveloper]⟩
      simpa [hdeveloper] using hlength r hmem
  · rintro ⟨hafter, hdeveloper⟩
    have hall : spokenRows rows = firstStretch rows := by
      rw [← filter_eq_firstStretch hafter, ← filter_spokenRows, filter_eq_self.mpr]
      intro r hr
      simpa using hdeveloper r (mem_filter.mp hr).1
    have hnil := (interactions_eq_nil_iff fun r hr => h r (mem_of_mem_afterStretch hr)).mpr hafter
    rw [interactions_prefill h hquiet, hnil, append_nil, hall]

end Prefill

/-! ### Both cuts -/

section Cuts

theorem map_strip_eq_iff (units : List TurnUnit) : units.map (fun unit => contents unit.rows) = units.map (·.strip) ↔
      ∀ unit ∈ units, ∀ r ∈ unit.rows, r.role ≠ "developer" := by
  rw [map_inj_left]
  refine forall₂_congr fun unit _ => ?_
  constructor
  · intro heq r hr
    have hlength := congrArg List.length heq
    rw [TurnUnit.strip, contents, contents, length_map, length_map, eq_comm,
      length_filter_eq_length_iff] at hlength
    simpa using hlength r hr
  · intro hnone
    rw [TurnUnit.strip, filter_eq_self.mpr]
    intro r hr
    simpa using hnone r hr

variable {row : MessageRow}

theorem spokenRows_cons_user (hrow : row.role = "user") (rows : List MessageRow) :
    spokenRows (row :: rows) = row :: spokenRows rows := filter_cons_of_pos (by simp [hrow])

theorem pairwise_developer_iff (hrow : row.role = "user") (rows : List MessageRow) :
    ((row :: rows).Pairwise fun a b => a.role = "developer" → b.role ≠ "user") ↔
      ∀ unit ∈ settledUnits (spokenRows (row :: rows)), ∀ r ∈ unit.rows, r.role ≠ "developer" := by
  have hne : turnUnits (spokenRows (row :: rows)) ≠ [] := by
    rw [spokenRows_cons_user hrow]
    exact turnUnits_ne_nil (cons_ne_nil _ _)
  obtain ⟨last, hunits⟩ : ∃ last, turnUnits (spokenRows (row :: rows)) = settledUnits (spokenRows (row :: rows)) ++ [last] :=
    ⟨_, (dropLast_append_getLast hne).symm⟩
  have hsplit : spokenRows (row :: rows) = (settledUnits (spokenRows (row :: rows))).flatMap (·.rows) ++ last.rows := by
    conv_lhs => rw [← rows_turnUnits (spokenRows (row :: rows)), hunits]
    rw [flatMap_append, flatMap_singleton]
  have hshaped := shaped_turnUnits (spokenRows (row :: rows))
  rw [hunits] at hshaped
  generalize settledUnits (spokenRows (row :: rows)) = settled at hsplit hshaped
  constructor
  · intro hpairs unit hunit r hr hdeveloper
    have hspoken := hpairs.sublist (filter_sublist (p := fun r => decide (r.role ≠ "system")))
    rw [← spokenRows, hsplit] at hspoken
    have hlast : last.first.role = "user" := by
      apply hshaped.first
      cases settled with
      | nil => simp at hunit
      | cons head settled => simp
    exact (pairwise_append.mp hspoken).2.2 r (mem_flatMap.mpr ⟨unit, hunit, hr⟩) last.first
      (mem_cons_self ..) hdeveloper hlast
  · intro hnone
    have hflat : ∀ r ∈ settled.flatMap (·.rows), r.role ≠ "developer" := by
      intro r hr
      obtain ⟨unit, hunit, hr⟩ := mem_flatMap.mp hr
      exact hnone unit hunit r hr
    have hrest : ∀ r ∈ last.rest, r.role ≠ "user" := hshaped.rest last (by simp)
    have hspoken : (spokenRows (row :: rows)).Pairwise fun a b => a.role = "developer" → b.role ≠ "user" := by
      rw [hsplit, pairwise_append]
      refine ⟨?_, ?_, fun a ha b _ hdeveloper => absurd hdeveloper (hflat a ha)⟩
      · exact pairwise_of_forall_mem_list fun a ha b _ hdeveloper => absurd hdeveloper (hflat a ha)
      · rw [TurnUnit.rows, pairwise_cons]
        exact ⟨fun b hb _ => hrest b hb, pairwise_of_forall_mem_list fun a _ b hb _ => hrest b hb⟩
    rw [spokenRows, pairwise_filter] at hspoken
    refine hspoken.imp fun {a b} hab hdeveloper huser => ?_
    exact hab (by simp [hdeveloper]) (by simp [huser]) hdeveloper huser

theorem takeWhile_dropWhile_user (messages : List MessageRow) :
    (∀ r ∈ messages.takeWhile (·.role ≠ "user"), r.role ≠ "user") ∧
      ∀ r ∈ (messages.dropWhile (·.role ≠ "user")).head?, r.role = "user" := by
  constructor
  · intro r hr
    simpa using mem_takeWhile_imp hr
  · intro r hr
    have hhead := head?_dropWhile_not (fun r : MessageRow => decide (r.role ≠ "user")) messages
    rw [Option.mem_def.mp hr] at hhead
    simpa using hhead

theorem quiet_eq_groups_iff {rows : List MessageRow} (h : ∀ r ∈ rows, r.Labelled) (hquiet : ∀ r ∈ rows, r.role ≠ "user") :
    (settledUnits (spokenRows rows)).map (fun unit => contents unit.rows) = (interactions (contents rows)).dropLast ↔
      (afterStretch rows).all (·.instructs) = true ∧
        rows.Pairwise fun a b => a.role = "developer" → b.role ≠ "user" := by
  have hspoken : ∀ r ∈ spokenRows rows, r.role ≠ "user" := fun r hr => hquiet r (mem_filter.mp hr).1
  have hsettled : (settledUnits (spokenRows rows)).map (fun unit => contents unit.rows) = [] := by
    rw [settledUnits, map_dropLast, turnUnits_of_quiet hspoken]
    split <;> rfl
  have hpairs : rows.Pairwise fun a b => a.role = "developer" → b.role ≠ "user" :=
    pairwise_of_forall_mem_list fun _ _ b hb _ => hquiet b hb
  rw [hsettled, ← length_prefill_le_iff h hquiet, eq_comm, ← length_eq_zero_iff, length_dropLast]
  constructor
  · exact fun hlength => ⟨by omega, hpairs⟩
  · exact fun hlength => by have := hlength.1; omega

theorem pairwise_append_user_iff {older rows : List MessageRow} (hquiet : ∀ r ∈ older, r.role ≠ "user")
    (hrow : row.role = "user") : ((older ++ row :: rows).Pairwise fun a b => a.role = "developer" → b.role ≠ "user") ↔
      (∀ r ∈ older, r.role ≠ "developer") ∧
        (row :: rows).Pairwise fun a b => a.role = "developer" → b.role ≠ "user" := by
  rw [pairwise_append]
  constructor
  · rintro ⟨-, hnewer, hcross⟩
    exact ⟨fun r hr hdeveloper => hcross r hr row (mem_cons_self ..) hdeveloper hrow, hnewer⟩
  · rintro ⟨hnone, hnewer⟩
    exact ⟨pairwise_of_forall_mem_list fun _ _ b hb _ => hquiet b hb, hnewer,
      fun a ha _ _ hdeveloper => absurd hdeveloper (hnone a ha)⟩

/-- The settled units and the groups but the last are the same exactly under `SameCut`. -/
theorem settled_eq_groups_iff {messages : List MessageRow} (h : ∀ r ∈ messages, r.Labelled) :
    (settledUnits (spokenRows messages)).map (fun unit => contents unit.rows)
        = (interactions (contents messages)).dropLast ↔ SameCut messages := by
  obtain ⟨hquiet, hfirst⟩ := takeWhile_dropWhile_user messages
  have hsplit := (takeWhile_append_dropWhile (p := fun r : MessageRow => decide (r.role ≠ "user")) (l := messages)).symm
  have hcut : SameCut messages ↔ (afterStretch (messages.takeWhile (·.role ≠ "user"))).all (·.instructs) = true ∧
      messages.Pairwise fun a b => a.role = "developer" → b.role ≠ "user" := ⟨fun h => ⟨h.1, h.2⟩, fun h => ⟨h.1, h.2⟩⟩
  rw [hcut]
  clear hcut
  generalize messages.takeWhile (·.role ≠ "user") = older at hquiet hsplit
  generalize messages.dropWhile (·.role ≠ "user") = newer at hfirst hsplit
  subst hsplit
  have holder : ∀ r ∈ older, r.Labelled := fun r hr => h r (mem_append_left _ hr)
  cases newer with
  | nil =>
    rw [append_nil]
    exact quiet_eq_groups_iff holder hquiet
  | cons row rows =>
    have hrow : row.role = "user" := hfirst row rfl
    have hnewer : ∀ r ∈ row :: rows, r.Labelled := fun r hr => h r (mem_append_right _ hr)
    have hne : turnUnits (row :: spokenRows rows) ≠ [] := turnUnits_ne_nil (cons_ne_nil _ _)
    have hunits : settledUnits (spokenRows (older ++ row :: rows))
        = turnUnits (spokenRows older) ++ settledUnits (spokenRows (row :: rows)) := by
      rw [settledUnits, settledUnits, spokenRows_cons_user hrow, ← dropLast_append_of_ne_nil hne,
        ← turnUnits_append_user _ hrow, ← spokenRows_cons_user hrow]
      exact congrArg (fun rows => (turnUnits rows).dropLast) (filter_append ..)
    have hgroups : (interactions (contents (older ++ row :: rows))).dropLast
        = interactions (contents older) ++ (settledUnits (spokenRows (row :: rows))).map (·.strip) := by
      have hlabelled := hnewer row (mem_cons_self ..)
      have hcontents : contents (older ++ row :: rows) = contents older ++ row.content :: contents rows := by
        rw [contents, map_append, map_cons]
        rfl
      rw [hcontents, interactions_append_user _ (by simp [hlabelled.isUser, hrow])
        (by simp [hlabelled.isInstruction, MessageRow.instructs, hrow])]
      rw [show row.content :: contents rows = contents (row :: rows) from rfl, interactions_eq_strip hrow hnewer,
        dropLast_append_of_ne_nil (by simpa [spokenRows_cons_user hrow] using hne), ← map_dropLast]
      rfl
    rw [hunits, hgroups, map_append, pairwise_append_user_iff hquiet hrow, ← and_assoc,
      ← prefill_eq_iff holder hquiet, pairwise_developer_iff hrow, ← map_strip_eq_iff]
    constructor
    · intro heq
      exact append_inj' heq (by simp)
    · rintro ⟨hprefill, hstrip⟩
      rw [hprefill, hstrip]

end Cuts

/-- A pass over a history without chunks stores its settled units. These are the interaction units, instructions and the last unit apart, exactly if no developer message comes before a user message and at most one stretch of messages comes before the first one. -/
theorem chunks_are_units_iff {rt : Runtime} {encode : Message → String} {draw : ℤ → RowId} {s : ChunkRows}
    (hs : s.Unchunked) (hlabelled : ∀ r ∈ s.rows.messages, r.Labelled) {result : ℕ × Option ℤ} {ws : List ChunkWrite}
    (hrun : chunkTables.run (chunkNewTurns rt encode draw) s = .ok (result, ws)) {units : List InteractionUnit}
    (hunits : segmentMessages rt (contents s.rows.messages) = .ok units) :
    (chunkTables.applyParts ws s).chunks.map (·.data)
        = (settledUnits (spokenRows s.rows.messages)).map (unitData encode) ∧
      ((settledUnits (spokenRows s.rows.messages)).map (fun unit => contents unit.rows)
          = ((units.filter (!·.isSystem)).map (·.messages)).dropLast ↔ SameCut s.rows.messages) := by
  refine ⟨(ensures_chunkNewTurns hs.contiguous nil_prefix s hs.stored result ws hrun).1.chunks, ?_⟩
  rw [segmentMessages_interactions hunits]
  exact settled_eq_groups_iff hlabelled

def noteBetween : ChunkRows where
  rows := {
    known := true
    messages := [⟨1, 0, "user", textMessage "user" "A", []⟩, ⟨2, 1, "developer", textMessage "developer" "D", []⟩,
      ⟨3, 2, "user", textMessage "user" "B", []⟩]
    toolCalls := [], toolResults := [], media := [] }
  chunks := []
  lastChunkedSeq := none

/-- The developer message is in the chunk of the first question and not in its unit. -/
theorem note_in_chunk : ∃ result ws units,
    chunkTables.run (chunkNewTurns plainRuntime (fun _ => "") fun _ => 7) noteBetween = .ok (result, ws) ∧
      (chunkTables.applyParts ws noteBetween).chunks.map (·.messageIds) = [[1, 2]] ∧
      segmentMessages plainRuntime (contents noteBetween.rows.messages) = .ok units ∧
      ((units.filter (!·.isSystem)).map (·.messages)).dropLast = [[textMessage "user" "A"]] ∧
      (settledUnits (spokenRows noteBetween.rows.messages)).map (fun unit => contents unit.rows)
        = [[textMessage "user" "A", textMessage "developer" "D"]] :=
  ⟨_, _, _, rfl, rfl, rfl, rfl, rfl⟩

/-- Two questions alone are cut the same way. -/
theorem chunks_are_units_iff_twoQuestions : ∃ result ws units,
    chunkTables.run (chunkNewTurns plainRuntime (fun _ => "") fun _ => 7) (twoQuestions.part "c") = .ok (result, ws) ∧
      segmentMessages plainRuntime (contents (twoQuestions.part "c").rows.messages) = .ok units ∧
      (settledUnits (spokenRows (twoQuestions.part "c").rows.messages)).map (fun unit => contents unit.rows)
        = ((units.filter (!·.isSystem)).map (·.messages)).dropLast := by
  have hlabelled : ∀ r ∈ (twoQuestions.part "c").rows.messages, r.Labelled :=
    forall_mem_cons.mpr ⟨rfl, forall_mem_singleton.mpr rfl⟩
  have hs : (twoQuestions.part "c").Unchunked := ⟨rfl, rfl, rfl⟩
  obtain ⟨result, ws, hrun⟩ : ∃ result ws, chunkTables.run (chunkNewTurns plainRuntime (fun _ => "") fun _ => 7)
      (twoQuestions.part "c") = .ok (result, ws) := ⟨_, _, rfl⟩
  obtain ⟨units, hunits⟩ : ∃ units,
      segmentMessages plainRuntime (contents (twoQuestions.part "c").rows.messages) = .ok units := ⟨_, rfl⟩
  refine ⟨result, ws, units, hrun, hunits, (chunks_are_units_iff hs hlabelled hrun hunits).2.mpr ⟨rfl, ?_⟩⟩
  exact pairwise_pair.mpr fun hdeveloper => absurd hdeveloper (by decide)

end ContextProxy
