import ContextProxy.Lib.Interleaving
import Mathlib.Data.List.Sort

/-!
# Migrations

`apply_migrations`, statement by statement, for any number of calls at the same time. A call creates the table of markers, and then takes the files in order, each in a transaction: it waits for the advisory lock, looks for the marker, and if there is none it executes the file, inserts the marker and commits. A failure or a crash rolls the transaction back and ends the call; a restart is another call.

Only the call that has the lock changes what is committed, so the markers and the committed effects are always those of the first files (`migrations_consistent`).
-/

namespace ContextProxy

open List

structure Migration (S : Type) where
  name : String
  statements : List S
  deriving DecidableEq

structure MigrationsDir (S : Type) where
  files : List (Migration S)
  nodup : (files.map (·.name)).Nodup

/-- `sorted(migrations_dir.glob("*.sql"))`. -/
def MigrationsDir.sorted {S : Type} (dir : MigrationsDir S) : List (Migration S) :=
  dir.files.insertionSort fun a b => a.name ≤ b.name

/-- What is committed: whether `schema_migrations` exists, its names in the order in which they were inserted, and the statements that were executed; and whether some transaction has the lock. -/
structure MigrationDb (S : Type) where
  table : Bool
  names : List String
  effects : List S
  locked : Bool

/-- Where a call is. The names are those in `completed`; `done` are the statements that a transaction has executed. -/
inductive MigrationCall (S : Type) where
  | connected
  | begun
  | locking
  | created
  | between (completed : List String) (rest : List (Migration S))
  | waiting (completed : List String) (file : Migration S) (rest : List (Migration S))
  | reading (completed : List String) (file : Migration S) (rest : List (Migration S))
  | skipping (completed : List String) (rest : List (Migration S))
  | executing (completed : List String) (file : Migration S) (rest : List (Migration S)) (done left : List S)
  | marked (completed : List String) (file : Migration S) (rest : List (Migration S)) (done : List S)
  | returned (completed : List String)
  | failed (completed : List String)
  deriving DecidableEq

/-- The next statement succeeds, or the call ends here. -/
inductive MigrationEvent where
  | succeed
  | fail

namespace MigrationCall

variable {S : Type}

def holds : MigrationCall S → Bool
  | .locking | .created | .reading .. | .skipping .. | .executing .. | .marked .. => true
  | .connected | .begun | .between .. | .waiting .. | .returned _ | .failed _ => false

def completed : MigrationCall S → List String
  | .connected | .begun | .locking | .created => []
  | .between completed _ | .waiting completed .. | .reading completed .. | .skipping completed _
  | .executing completed .. | .marked completed .. | .returned completed | .failed completed => completed

def ended : MigrationCall S → Bool
  | .returned _ | .failed _ => true
  | _ => false

def rollback (call : MigrationCall S) (db : MigrationDb S) : MigrationCall S × MigrationDb S :=
  (.failed call.completed, { db with locked := db.locked && !call.holds })

def succeed (files : List (Migration S)) : MigrationCall S → MigrationDb S → Option (MigrationCall S × MigrationDb S)
  | .connected, db => some (.begun, db)
  | .begun, db => if db.locked then none else some (.locking, { db with locked := true })
  | .locking, db => some (.created, db)
  | .created, db => some (.between [] files, { db with table := true, locked := false })
  | .between completed [], db => some (.returned completed, db)
  | .between completed (file :: rest), db => some (.waiting completed file rest, db)
  | .waiting completed file rest, db =>
    if db.locked then none else some (.reading completed file rest, { db with locked := true })
  | .reading completed file rest, db =>
    if !db.table then some (rollback (.reading completed file rest) db)
    else if file.name ∈ db.names then some (.skipping completed rest, db)
    else some (.executing completed file rest [] file.statements, db)
  | .skipping completed rest, db => some (.between completed rest, { db with locked := false })
  | .executing completed file rest done (statement :: left), db =>
    some (.executing completed file rest (done ++ [statement]) left, db)
  | .executing completed file rest done [], db =>
    -- the primary key of the markers
    if file.name ∈ db.names then some (rollback (.executing completed file rest done []) db)
    else some (.marked completed file rest done, db)
  | .marked completed file rest done, db =>
    some (.between (completed ++ [file.name]) rest,
      { db with names := db.names ++ [file.name], effects := db.effects ++ done, locked := false })
  | .returned _, _ | .failed _, _ => none

def act (files : List (Migration S)) : MigrationEvent → MigrationCall S → MigrationDb S →
    Option (MigrationCall S × MigrationDb S)
  | .succeed, call, db => call.succeed files db
  | .fail, call, db => if call.ended then none else some (call.rollback db)

end MigrationCall

/-- An empty database, and calls that have only just connected. -/
def freshDatabase (S ι : Type) : Crew (MigrationDb S) (MigrationCall S) ι where
  shared := { table := false, names := [], effects := [], locked := false }
  locals := fun _ => .connected

/-! ### One event -/

namespace MigrationCall

variable {S : Type} {files : List (Migration S)} {event : MigrationEvent} {call call' : MigrationCall S}
  {db db' : MigrationDb S}

/-- What is committed changes only with the commit of a file and its marker. -/
def Commits (call : MigrationCall S) (db : MigrationDb S) (call' : MigrationCall S) (db' : MigrationDb S) : Prop :=
  ∃ completed file rest done, call = .marked completed file rest done ∧
    call' = .between (completed ++ [file.name]) rest ∧
    db'.names = db.names ++ [file.name] ∧ db'.effects = db.effects ++ done

structure Keeps (call : MigrationCall S) (db : MigrationDb S) (call' : MigrationCall S) (db' : MigrationDb S) : Prop where
  completed : call'.completed = call.completed
  names : db'.names = db.names
  effects : db'.effects = db.effects

/-- The lock is taken when it is free, kept, released, or not touched. -/
structure Locks (call : MigrationCall S) (db : MigrationDb S) (call' : MigrationCall S) (db' : MigrationDb S) : Prop where
  free : call'.holds = true → call.holds = false → db.locked = false
  taken : call'.holds = true → call.holds = false → db'.locked = true
  kept : call'.holds = true → call.holds = true → db'.locked = db.locked
  untouched : call'.holds = false → call.holds = false → db'.locked = db.locked

theorem keeps_rollback (call : MigrationCall S) (db : MigrationDb S) : Keeps call db (call.rollback db).1 (call.rollback db).2 :=
  ⟨rfl, rfl, rfl⟩

theorem locks_rollback (call : MigrationCall S) (db : MigrationDb S) :
    Locks call db (call.rollback db).1 (call.rollback db).2 where
  free := fun h => nomatch h
  taken := fun h => nomatch h
  kept := fun h => nomatch h
  untouched := fun _ h => by simp [rollback, h]

theorem succeed_cases (h : call.succeed files db = some (call', db')) :
    (Keeps call db call' db' ∨ Commits call db call' db') ∧ Locks call db call' db' := by
  cases call with
  | connected | locking | created | skipping completed rest =>
    obtain ⟨rfl, rfl⟩ := Prod.ext_iff.mp (Option.some.inj h)
    exact ⟨.inl ⟨rfl, rfl, rfl⟩, by constructor <;> simp [holds]⟩
  | between completed rest =>
    cases rest with
    | nil | cons file rest =>
      obtain ⟨rfl, rfl⟩ := Prod.ext_iff.mp (Option.some.inj h)
      exact ⟨.inl ⟨rfl, rfl, rfl⟩, by constructor <;> simp [holds]⟩
  | begun | waiting completed file rest =>
    rw [succeed] at h
    split at h
    · cases h
    · obtain ⟨rfl, rfl⟩ := Prod.ext_iff.mp (Option.some.inj h)
      exact ⟨.inl ⟨rfl, rfl, rfl⟩, by constructor <;> simp_all [holds]⟩
  | reading completed file rest =>
    rw [succeed] at h
    split at h
    · obtain ⟨rfl, rfl⟩ := Prod.ext_iff.mp (Option.some.inj h)
      exact ⟨.inl (keeps_rollback _ _), locks_rollback _ _⟩
    · split at h
      all_goals
        obtain ⟨rfl, rfl⟩ := Prod.ext_iff.mp (Option.some.inj h)
        exact ⟨.inl ⟨rfl, rfl, rfl⟩, by constructor <;> simp [holds]⟩
  | executing completed file rest done left =>
    cases left with
    | cons statement left =>
      obtain ⟨rfl, rfl⟩ := Prod.ext_iff.mp (Option.some.inj h)
      exact ⟨.inl ⟨rfl, rfl, rfl⟩, by constructor <;> simp [holds]⟩
    | nil =>
      rw [succeed] at h
      split at h
      · obtain ⟨rfl, rfl⟩ := Prod.ext_iff.mp (Option.some.inj h)
        exact ⟨.inl (keeps_rollback _ _), locks_rollback _ _⟩
      · obtain ⟨rfl, rfl⟩ := Prod.ext_iff.mp (Option.some.inj h)
        exact ⟨.inl ⟨rfl, rfl, rfl⟩, by constructor <;> simp [holds]⟩
  | marked completed file rest done =>
    obtain ⟨rfl, rfl⟩ := Prod.ext_iff.mp (Option.some.inj h)
    exact ⟨.inr ⟨completed, file, rest, done, rfl, rfl, rfl, rfl⟩, by constructor <;> simp [holds]⟩
  | returned completed | failed completed => cases h

theorem act_cases (h : act files event call db = some (call', db')) :
    (Keeps call db call' db' ∨ Commits call db call' db') ∧ Locks call db call' db' := by
  cases event with
  | succeed => exact succeed_cases h
  | fail =>
    rw [act] at h
    split at h
    · cases h
    · obtain ⟨rfl, rfl⟩ := Prod.ext_iff.mp (Option.some.inj h)
      exact ⟨.inl (keeps_rollback call db), locks_rollback call db⟩

/-! ### Where a call is among the files -/

/-- The files that a call has behind it are applied, of which there are `applied`. The file that is executed is the next one. -/
def InPlace (files : List (Migration S)) (applied : ℕ) : MigrationCall S → Prop
  | .connected | .begun | .locking | .created | .failed _ => True
  | .between _ rest | .skipping _ rest => ∃ before, files = before ++ rest ∧ before.length ≤ applied
  | .waiting _ file rest | .reading _ file rest => ∃ before, files = before ++ file :: rest ∧ before.length ≤ applied
  | .executing _ file rest done left =>
    ∃ before, files = before ++ file :: rest ∧ before.length = applied ∧ done ++ left = file.statements
  | .marked _ file rest done =>
    ∃ before, files = before ++ file :: rest ∧ before.length = applied ∧ done = file.statements
  | .returned _ => files.length ≤ applied

theorem InPlace.mono {applied applied' : ℕ} (h : call.InPlace files applied) (hholds : call.holds = false)
    (hle : applied ≤ applied') : call.InPlace files applied' := by
  cases call with
  | connected | begun | failed completed => trivial
  | between completed rest | waiting completed file rest =>
    obtain ⟨before, hfiles, hbefore⟩ := h
    exact ⟨before, hfiles, hbefore.trans hle⟩
  | returned completed => exact Nat.le_trans h hle
  | locking | created | reading completed file rest | skipping completed rest | executing completed file rest done left
  | marked completed file rest done => cases hholds

variable {file : Migration S} {rest : List (Migration S)}

theorem mem_markers_iff (hnodup : (files.map (·.name)).Nodup) {before : List (Migration S)}
    (hfiles : files = before ++ file :: rest) (applied : ℕ) :
    file.name ∈ (files.take applied).map (·.name) ↔ before.length < applied := by
  subst hfiles
  constructor
  · intro hmem
    by_contra hle
    rw [take_append_of_le_length (Nat.not_lt.mp hle)] at hmem
    rw [map_append, map_cons, nodup_append'] at hnodup
    exact hnodup.2.2 (((take_sublist _ _).map _).subset hmem) mem_cons_self
  · intro hlt
    obtain ⟨n, hn⟩ : ∃ n, applied - before.length = n + 1 := ⟨applied - before.length - 1, by omega⟩
    rw [take_append, hn, take_succ_cons, map_append, map_cons]
    exact mem_append_right _ mem_cons_self

section

variable (hnodup : (files.map (·.name)).Nodup) (hnames : db.names = (files.take db.names.length).map (·.name))
include hnodup hnames

/-- The marker of a file decides between skipping and executing it. Only a file behind all markers is executed. -/
theorem InPlace.succeed_reading {completed : List String}
    (h : (MigrationCall.reading completed file rest).InPlace files db.names.length)
    (hnext : (MigrationCall.reading completed file rest).succeed files db = some (call', db')) :
    call'.InPlace files db'.names.length := by
  obtain ⟨before, hfiles, hbefore⟩ := h
  have hmarker := mem_markers_iff hnodup hfiles db.names.length
  rw [← hnames] at hmarker
  rw [MigrationCall.succeed] at hnext
  split at hnext
  · obtain ⟨rfl, rfl⟩ := Prod.ext_iff.mp (Option.some.inj hnext)
    trivial
  · split at hnext
    · rename_i hmem
      obtain ⟨rfl, rfl⟩ := Prod.ext_iff.mp (Option.some.inj hnext)
      refine ⟨before ++ [file], by rw [hfiles, append_assoc]; rfl, ?_⟩
      rw [length_append, length_singleton]
      exact hmarker.mp hmem
    · rename_i hmem
      obtain ⟨rfl, rfl⟩ := Prod.ext_iff.mp (Option.some.inj hnext)
      exact ⟨before, hfiles, Nat.le_antisymm hbefore (Nat.not_lt.mp (mt hmarker.mpr hmem)), rfl⟩

theorem InPlace.succeed (h : call.InPlace files db.names.length) (hnext : call.succeed files db = some (call', db')) :
    call'.InPlace files db'.names.length := by
  cases call with
  | connected | locking =>
    obtain ⟨rfl, rfl⟩ := Prod.ext_iff.mp (Option.some.inj hnext)
    trivial
  | created =>
    obtain ⟨rfl, rfl⟩ := Prod.ext_iff.mp (Option.some.inj hnext)
    exact ⟨[], rfl, Nat.zero_le _⟩
  | begun =>
    rw [MigrationCall.succeed] at hnext
    split at hnext
    · cases hnext
    · obtain ⟨rfl, rfl⟩ := Prod.ext_iff.mp (Option.some.inj hnext)
      trivial
  | between completed rest =>
    obtain ⟨before, hfiles, hbefore⟩ := h
    cases rest with
    | nil =>
      obtain ⟨rfl, rfl⟩ := Prod.ext_iff.mp (Option.some.inj hnext)
      rw [append_nil] at hfiles
      exact hfiles ▸ hbefore
    | cons file rest =>
      obtain ⟨rfl, rfl⟩ := Prod.ext_iff.mp (Option.some.inj hnext)
      exact ⟨before, hfiles, hbefore⟩
  | waiting completed file rest =>
    rw [MigrationCall.succeed] at hnext
    split at hnext
    · cases hnext
    · obtain ⟨rfl, rfl⟩ := Prod.ext_iff.mp (Option.some.inj hnext)
      exact h
  | reading completed file rest => exact InPlace.succeed_reading hnodup hnames h hnext
  | skipping completed rest =>
    obtain ⟨rfl, rfl⟩ := Prod.ext_iff.mp (Option.some.inj hnext)
    exact h
  | executing completed file rest done left =>
    obtain ⟨before, hfiles, hbefore, hstatements⟩ := h
    cases left with
    | cons statement left =>
      obtain ⟨rfl, rfl⟩ := Prod.ext_iff.mp (Option.some.inj hnext)
      exact ⟨before, hfiles, hbefore, by rw [append_assoc]; exact hstatements⟩
    | nil =>
      rw [MigrationCall.succeed] at hnext
      split at hnext
      · obtain ⟨rfl, rfl⟩ := Prod.ext_iff.mp (Option.some.inj hnext)
        trivial
      · obtain ⟨rfl, rfl⟩ := Prod.ext_iff.mp (Option.some.inj hnext)
        exact ⟨before, hfiles, hbefore, by rwa [append_nil] at hstatements⟩
  | marked completed file rest done =>
    obtain ⟨before, hfiles, hbefore, -⟩ := h
    obtain ⟨rfl, rfl⟩ := Prod.ext_iff.mp (Option.some.inj hnext)
    refine ⟨before ++ [file], by rw [hfiles, append_assoc]; rfl, ?_⟩
    rw [length_append, length_append, hbefore]
    exact le_rfl
  | returned completed | failed completed => cases hnext

theorem InPlace.act (h : call.InPlace files db.names.length) (hnext : act files event call db = some (call', db')) :
    call'.InPlace files db'.names.length := by
  cases event with
  | succeed => exact h.succeed hnodup hnames hnext
  | fail =>
    rw [MigrationCall.act] at hnext
    split at hnext
    · cases hnext
    · obtain ⟨rfl, rfl⟩ := Prod.ext_iff.mp (Option.some.inj hnext)
      trivial

end

end MigrationCall

/-! ### All calls together -/

variable {S ι : Type}

/-- What holds at any time of the database and of the calls. -/
structure Consistent (files : List (Migration S)) (w : Crew (MigrationDb S) (MigrationCall S) ι) : Prop where
  names : w.shared.names = (files.take w.shared.names.length).map (·.name)
  effects : w.shared.effects = (files.take w.shared.names.length).flatMap (·.statements)
  locked : ∀ i, (w.locals i).holds = true → w.shared.locked = true
  holder : ∀ i j, (w.locals i).holds = true → (w.locals j).holds = true → i = j
  place : ∀ i, (w.locals i).InPlace files w.shared.names.length
  nodup : ∀ i, (w.locals i).completed.Nodup
  marked : ∀ i, ∀ name ∈ (w.locals i).completed, name ∈ w.shared.names
  once : ∀ i j name, name ∈ (w.locals i).completed → name ∈ (w.locals j).completed → i = j

theorem consistent_fresh (files : List (Migration S)) : Consistent files (freshDatabase S ι) where
  names := rfl
  effects := rfl
  locked := fun _ h => nomatch h
  holder := fun _ _ h => nomatch h
  place := fun _ => trivial
  nodup := fun _ => nodup_nil
  marked := fun _ _ h => nomatch h
  once := fun _ _ _ h => nomatch h

section Step

variable [DecidableEq ι] {files : List (Migration S)} {w w' : Crew (MigrationDb S) (MigrationCall S) ι} {i : ι}
  {next : MigrationCall S × MigrationDb S}

open MigrationCall

theorem Consistent.locks (h : Consistent files w) (hlocks : Locks (w.locals i) w.shared next.1 next.2) :
    (∀ j, ((w.put i next).locals j).holds = true → next.2.locked = true) ∧
      ∀ j k, ((w.put i next).locals j).holds = true → ((w.put i next).locals k).holds = true → j = k := by
  -- while another call has the lock, this one neither has it nor gets it
  have hother : ∀ j, j ≠ i → (w.locals j).holds = true → (w.locals i).holds = false ∧ next.1.holds = false := by
    intro j hj hholds
    have hnot : (w.locals i).holds = false := Bool.eq_false_of_not_eq_true fun hi => hj (h.holder j i hholds hi)
    refine ⟨hnot, Bool.eq_false_of_not_eq_true fun hnext => ?_⟩
    have hfree := hlocks.free hnext hnot
    rw [h.locked j hholds] at hfree
    cases hfree
  constructor
  · intro j hj
    by_cases hji : j = i
    · rw [hji, Crew.put_locals_self] at hj
      cases hholds : (w.locals i).holds with
      | false => exact hlocks.taken hj hholds
      | true => rw [hlocks.kept hj hholds, h.locked i hholds]
    · rw [Crew.put_locals_of_ne next hji] at hj
      obtain ⟨hnot, hnext⟩ := hother j hji hj
      rw [hlocks.untouched hnext hnot, h.locked j hj]
  · intro j k hj hk
    by_cases hji : j = i
    · by_cases hki : k = i
      · rw [hji, hki]
      · rw [Crew.put_locals_of_ne next hki] at hk
        rw [hji, Crew.put_locals_self, (hother k hki hk).2] at hj
        cases hj
    · rw [Crew.put_locals_of_ne next hji] at hj
      by_cases hki : k = i
      · rw [hki, Crew.put_locals_self, (hother j hji hj).2] at hk
        cases hk
      · rw [Crew.put_locals_of_ne next hki] at hk
        exact h.holder j k hj hk

theorem Consistent.keep (h : Consistent files w) (hkeeps : Keeps (w.locals i) w.shared next.1 next.2)
    (hlocks : Locks (w.locals i) w.shared next.1 next.2) (hplace : next.1.InPlace files next.2.names.length) :
    Consistent files (w.put i next) := by
  obtain ⟨hlocked, hholder⟩ := h.locks hlocks
  have hcompleted : ∀ j, ((w.put i next).locals j).completed = (w.locals j).completed :=
    Crew.forall_put (P := fun j (call : MigrationCall S) => call.completed = (w.locals j).completed) hkeeps.completed
      fun _ _ => rfl
  constructor
  · rw [Crew.put_shared, hkeeps.names]
    exact h.names
  · rw [Crew.put_shared, hkeeps.names, hkeeps.effects]
    exact h.effects
  · exact hlocked
  · exact hholder
  · refine Crew.forall_put (P := fun _ => InPlace files next.2.names.length) hplace fun j _ => ?_
    rw [hkeeps.names]
    exact h.place j
  · intro j
    rw [hcompleted]
    exact h.nodup j
  · intro j
    rw [hcompleted, Crew.put_shared, hkeeps.names]
    exact h.marked j
  · intro j k name
    rw [hcompleted, hcompleted]
    exact h.once j k name

/-- The commit of a file: it was the next one. -/
theorem Consistent.commit (hnodup : (files.map (·.name)).Nodup) (h : Consistent files w)
    (hcommits : Commits (w.locals i) w.shared next.1 next.2) (hlocks : Locks (w.locals i) w.shared next.1 next.2)
    (hplace : next.1.InPlace files next.2.names.length) : Consistent files (w.put i next) := by
  obtain ⟨hlocked, hholder⟩ := h.locks hlocks
  obtain ⟨completed, file, rest, done, hcall, hnext, hnames, heffects⟩ := hcommits
  have hbefore := h.place i
  rw [hcall] at hbefore
  obtain ⟨before, hfiles, hlength, hdone⟩ := hbefore
  have hnew : file.name ∉ w.shared.names := by
    rw [h.names, mem_markers_iff hnodup hfiles, hlength]
    exact lt_irrefl _
  have htake : files.take w.shared.names.length = before ∧ files.take (w.shared.names.length + 1) = before ++ [file] := by
    rw [← hlength, hfiles]
    refine ⟨take_left, ?_⟩
    rw [take_append, take_of_length_le (Nat.le_succ _), Nat.add_sub_cancel_left]
    rfl
  have hself : (w.put i next).locals i = .between (completed ++ [file.name]) rest := by rw [Crew.put_locals_self, hnext]
  have hcompleted : (w.locals i).completed = completed := by rw [hcall]; rfl
  have hmem : ∀ j name, name ∈ ((w.put i next).locals j).completed ↔
      name ∈ (w.locals j).completed ∨ (j = i ∧ name = file.name) := by
    intro j name
    by_cases hj : j = i
    · rw [hj, hself, hcompleted, and_iff_right rfl, ← mem_singleton, ← mem_append]
      rfl
    · rw [Crew.put_locals_of_ne next hj, or_iff_left fun hnot => hj hnot.1]
  constructor
  · rw [Crew.put_shared, hnames, length_append, length_singleton, htake.2, map_append, ← htake.1, ← h.names]
    rfl
  · rw [Crew.put_shared, hnames, heffects, length_append, length_singleton, htake.2, flatMap_append, ← htake.1,
      ← h.effects, flatMap_singleton, hdone]
  · exact hlocked
  · exact hholder
  · refine Crew.forall_put (P := fun _ => InPlace files next.2.names.length) hplace fun j hj => ?_
    have hnot : (w.locals j).holds = false := by
      apply Bool.eq_false_of_not_eq_true
      intro hholds
      exact hj (h.holder j i hholds (by rw [hcall]; rfl))
    rw [hnames, length_append]
    exact (h.place j).mono hnot (Nat.le_add_right _ _)
  · refine Crew.forall_put (P := fun _ (call : MigrationCall S) => call.completed.Nodup) ?_ fun j _ => h.nodup j
    have hold := h.nodup i
    rw [hcompleted] at hold
    rw [hnext]
    refine nodup_append'.mpr ⟨hold, nodup_singleton _, ?_⟩
    rw [disjoint_singleton]
    exact fun hmem => hnew (h.marked i _ (hcompleted ▸ hmem))
  · intro j name hname
    rw [Crew.put_shared, hnames, mem_append, mem_singleton]
    exact ((hmem j name).mp hname).imp (h.marked j name) And.right
  · intro j k name hj hk
    rcases (hmem j name).mp hj with hj | ⟨hji, hname⟩
    · rcases (hmem k name).mp hk with hk | ⟨-, hname⟩
      · exact h.once j k name hj hk
      · exact absurd (hname ▸ h.marked j name hj) hnew
    · rcases (hmem k name).mp hk with hk | ⟨hki, -⟩
      · exact absurd (hname ▸ h.marked k name hk) hnew
      · rw [hji, hki]

theorem Consistent.act (hnodup : (files.map (·.name)).Nodup) (h : Consistent files w) {event : MigrationEvent}
    (hact : MigrationCall.act files event (w.locals i) w.shared = some next) : Consistent files (w.put i next) := by
  have hplace := (h.place i).act hnodup h.names hact
  obtain ⟨hkeeps | hcommits, hlocks⟩ := act_cases hact
  · exact h.keep hkeeps hlocks hplace
  · exact h.commit hnodup hcommits hlocks hplace

end Step

theorem MigrationsDir.nodup_sorted (dir : MigrationsDir S) : (dir.sorted.map (·.name)).Nodup :=
  ((perm_insertionSort _ _).map _).nodup_iff.mpr dir.nodup

/-- Whatever calls run on a directory, and wherever they fail: the names in `schema_migrations` are those of the first files, and the committed statements are those of these files, each once and in order. A call that returned leaves all files applied, and no two calls have completed the same file. -/
theorem migrations_consistent [DecidableEq ι] (dir : MigrationsDir S) (w : Crew (MigrationDb S) (MigrationCall S) ι)
    (h : Crew.Reaches (MigrationCall.act dir.sorted) (freshDatabase S ι) w) :
    (∃ applied ≤ dir.sorted.length, w.shared.names = (dir.sorted.take applied).map (·.name) ∧
      w.shared.effects = (dir.sorted.take applied).flatMap (·.statements)) ∧
    (∀ i completed, w.locals i = .returned completed →
      w.shared.names = dir.sorted.map (·.name) ∧ w.shared.effects = dir.sorted.flatMap (·.statements)) ∧
    (∀ i, (w.locals i).completed.Nodup) ∧
    ∀ i j name, name ∈ (w.locals i).completed → name ∈ (w.locals j).completed → i = j := by
  have hw : Consistent dir.sorted w := by
    apply h.invariant (P := Consistent dir.sorted)
    · intro w i event next hw hact
      exact hw.act dir.nodup_sorted hact
    · exact consistent_fresh dir.sorted
  have hlength : w.shared.names.length ≤ dir.sorted.length := by
    have hnames := congrArg List.length hw.names
    rw [length_map, length_take] at hnames
    omega
  refine ⟨⟨w.shared.names.length, hlength, hw.names, hw.effects⟩, ?_, hw.nodup, hw.once⟩
  intro i completed hreturned
  have hall := hw.place i
  rw [hreturned] at hall
  have htake := take_of_length_le (show dir.sorted.length ≤ w.shared.names.length from hall)
  have hnames := hw.names
  have heffects := hw.effects
  rw [htake] at hnames heffects
  exact ⟨hnames, heffects⟩

def twoFiles : MigrationsDir ℕ where
  files := [⟨"002_more.sql", [3]⟩, ⟨"001_init.sql", [1, 2]⟩]
  nodup := by decide

/-- One call fails inside of the second file; another one skips the first and applies the second. -/
theorem migrations_consistent_failed : ∃ w : Crew (MigrationDb ℕ) (MigrationCall ℕ) ℕ,
      Crew.Reaches (MigrationCall.act twoFiles.sorted) (freshDatabase ℕ ℕ) w ∧
        w.locals 0 = .failed ["001_init.sql"] ∧ w.locals 1 = .returned ["002_more.sql"] ∧
        w.shared.effects = twoFiles.sorted.flatMap (·.statements) := by
  let schedule : List (ℕ × MigrationEvent) :=
    List.replicate 15 (0, .succeed) ++ [(0, .fail)] ++ List.replicate 15 (1, .succeed)
  have hview : ((freshDatabase ℕ ℕ).run (MigrationCall.act twoFiles.sorted) schedule).map
      (fun w => (w.locals 0, w.locals 1)) = some (.failed ["001_init.sql"], .returned ["002_more.sql"]) := by
    decide +kernel
  obtain ⟨w, hrun, hw⟩ := Option.map_eq_some_iff.mp hview
  obtain ⟨hfailed, hreturned⟩ := Prod.ext_iff.mp hw
  have hreaches : Crew.Reaches (MigrationCall.act twoFiles.sorted) (freshDatabase ℕ ℕ) w := ⟨schedule, hrun⟩
  exact ⟨w, hreaches, hfailed, hreturned, ((migrations_consistent twoFiles w hreaches).2.1 1 _ hreturned).2⟩

end ContextProxy
