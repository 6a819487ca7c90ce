import StepSignal.Proofs.Outcome
import StepSignal.Scalar.Binary64
import StepSignal.Selection

/-!
# Selecting the rows of tasks

Whether a column is looked up depends on all tasks of a list, but what a task asks of a row does not:
a task looks at a column only for a part that it sets, and then the column is looked up whatever the
other tasks are. So a list of tasks selects what its members select, one by one.
-/

namespace StepSignal

variable {α : Type} {t : Table α}

/-! ## Positions -/

section Positions

variable {column : Option String} {tasks : List Task} {task : Task} {needs : Task → Bool}

namespace Table

/-- Only a column that is needed can be missing. -/
theorem exists_positionIfNeeded (needed : Bool) :
    (∃ place, t.positionIfNeeded column needed = .ok place) ↔
      (needed = true → ∃ place, t.positionIfNeeded column true = .ok place) := by
  cases needed with
  | true => exact ⟨fun h _ => h, fun h => h rfl⟩
  | false => cases column <;> exact iff_of_true ⟨_, rfl⟩ (nomatch ·)

/-- A column that some tasks need is found when it is found for each of them. -/
theorem exists_positionIfNeeded_any :
    (∃ place, t.positionIfNeeded column (tasks.any needs) = .ok place) ↔
      ∀ task ∈ tasks, ∃ place, t.positionIfNeeded column (needs task) = .ok place := by
  simp only [exists_positionIfNeeded (t := t) (tasks.any needs), exists_positionIfNeeded (needs _)]
  rw [List.any_eq_true]
  exact ⟨fun h task htask hneeds => h ⟨task, htask, hneeds⟩,
    fun h ⟨task, htask, hneeds⟩ => h task htask hneeds⟩

/-- A task that needs a column finds it where its companions do. -/
theorem positionIfNeeded_alone {place alone : Option Nat} (htask : task ∈ tasks)
    (hplace : t.positionIfNeeded column (tasks.any needs) = .ok place)
    (halone : t.positionIfNeeded column ([task].any needs) = .ok alone)
    (hneeds : needs task = true) : alone = place := by
  rw [List.any_eq_true.mpr ⟨task, htask, hneeds⟩] at hplace
  rw [List.any_eq_true.mpr ⟨task, List.mem_singleton_self task, hneeds⟩, hplace] at halone
  exact (Except.ok.inj halone).symm

end Table

end Positions

section Selection

variable [Scalar α] {tasks : List Task} {task : Task} {pidColumn commColumn : Option String}
  {invert : Bool} {nameLength : Nat} {pidAt commAt : Option Nat}

namespace Table

/-- The positions of the columns that a list of tasks looks at. -/
structure TaskPositions (t : Table α) (tasks : List Task) (pidColumn commColumn : Option String)
    (pidAt commAt : Option Nat) : Prop where
  pid : t.positionIfNeeded pidColumn (tasks.any (·.pid.isSome)) = .ok pidAt
  comm : t.positionIfNeeded commColumn (tasks.any (·.comm.isSome)) = .ok commAt

theorem selectTasks_eq_ok {out : Table α} :
    t.selectTasks tasks pidColumn commColumn invert nameLength = .ok out ↔
      ∃ pidAt commAt, t.TaskPositions tasks pidColumn commColumn pidAt commAt ∧
        { t with rows := t.rows.filter fun row =>
          tasks.any (Task.fits nameLength pidAt commAt row) != invert } = out := by
  unfold selectTasks
  rw [bind_eq_ok]
  constructor
  · rintro ⟨pidAt, hpid, h⟩
    obtain ⟨commAt, hcomm, h⟩ := bind_eq_ok.mp h
    exact ⟨pidAt, commAt, ⟨hpid, hcomm⟩, Except.ok.inj h⟩
  · rintro ⟨pidAt, commAt, ⟨hpid, hcomm⟩, rfl⟩
    refine ⟨pidAt, hpid, ?_⟩
    rw [hcomm]
    rfl

/-- A selection is refused whether it is inverted or not. -/
theorem selectTasks_eq_error {fault : Fault α}
    (h : t.selectTasks tasks pidColumn commColumn false nameLength = .error fault) :
    t.selectTasks tasks pidColumn commColumn true nameLength = .error fault := by
  unfold selectTasks at h ⊢
  cases hpid : t.positionIfNeeded pidColumn (tasks.any (·.pid.isSome)) with
  | error fault =>
    rw [hpid] at h
    exact h
  | ok pidAt =>
    rw [hpid, ok_bind] at h
    rw [ok_bind]
    cases hcomm : t.positionIfNeeded commColumn (tasks.any (·.comm.isSome)) with
    | error fault =>
      rw [hcomm] at h
      exact h
    | ok commAt =>
      rw [hcomm] at h
      cases h

omit [Scalar α] in
/-- The columns of a list of tasks are found when those of each task are. -/
theorem exists_taskPositions :
    (∃ pidAt commAt, t.TaskPositions tasks pidColumn commColumn pidAt commAt) ↔
      ∀ task ∈ tasks,
        ∃ pidAt commAt, t.TaskPositions [task] pidColumn commColumn pidAt commAt := by
  have hparts : ∀ tasks : List Task,
      (∃ pidAt commAt, t.TaskPositions tasks pidColumn commColumn pidAt commAt) ↔
        (∃ place, t.positionIfNeeded pidColumn (tasks.any (·.pid.isSome)) = .ok place) ∧
          ∃ place, t.positionIfNeeded commColumn (tasks.any (·.comm.isSome)) = .ok place := by
    intro tasks
    constructor
    · rintro ⟨pidAt, commAt, hpid, hcomm⟩
      exact ⟨⟨pidAt, hpid⟩, commAt, hcomm⟩
    · rintro ⟨⟨pidAt, hpid⟩, commAt, hcomm⟩
      exact ⟨pidAt, commAt, hpid, hcomm⟩
  simp only [hparts, exists_positionIfNeeded_any, List.forall_mem_singleton]
  exact forall₂_and.symm

end Table

/-- Where a column is looked at matters only to what is asked for in it. -/
theorem fieldFits_congr {row : Stamped α (List (Cell α))} {place other : Option Nat}
    {wanted : Option (Cell α)} (h : wanted.isSome = true → place = other) :
    fieldFits row place wanted = fieldFits row other wanted := by
  cases wanted with
  | none => cases place <;> cases other <;> rfl
  | some cell => rw [h rfl]

namespace Table

/-- A task fits a row whatever its companions are. -/
theorem TaskPositions.fits_alone {pidAlone commAlone : Option Nat}
    (h : t.TaskPositions tasks pidColumn commColumn pidAt commAt) (htask : task ∈ tasks)
    (halone : t.TaskPositions [task] pidColumn commColumn pidAlone commAlone)
    (row : Stamped α (List (Cell α))) :
    task.fits nameLength pidAlone commAlone row = task.fits nameLength pidAt commAt row := by
  have hpid : (task.pidCell : Option (Cell α)).isSome = true → pidAlone = pidAt := by
    rw [Task.pidCell, Option.isSome_map]
    exact positionIfNeeded_alone htask h.pid halone.pid
  have hcomm : (task.commCell nameLength : Option (Cell α)).isSome = true → commAlone = commAt := by
    rw [Task.commCell, Option.isSome_map]
    exact positionIfNeeded_alone htask h.comm halone.comm
  rw [Task.fits, Task.fits, fieldFits_congr hpid, fieldFits_congr hcomm]

/-- What a task selects alone is what it fits among its companions. -/
theorem TaskPositions.mem_alone (h : t.TaskPositions tasks pidColumn commColumn pidAt commAt)
    (htask : task ∈ tasks) {row : Stamped α (List (Cell α))} (hrow : row ∈ t.rows) :
    (∃ one, t.selectTasks [task] pidColumn commColumn false nameLength = .ok one ∧
        row ∈ one.rows) ↔
      task.fits nameLength pidAt commAt row = true := by
  obtain ⟨pidAlone, commAlone, halone⟩ := exists_taskPositions.mp ⟨pidAt, commAt, h⟩ task htask
  have hselected : t.selectTasks [task] pidColumn commColumn false nameLength = .ok _ :=
    selectTasks_eq_ok.mpr ⟨pidAlone, commAlone, halone, rfl⟩
  rw [hselected]
  simp [hrow, h.fits_alone htask halone]

/-- **Selecting tasks is the union of selecting each of them.** A list of tasks can be selected when
each of its tasks can. Then it keeps the rows that at least one of its tasks keeps alone and, inverted,
the other rows, both in their order and with their cells. Only which tasks there are matters, not
their order or how often they are there. -/
theorem selectTasks_union (t : Table α) (tasks : List Task) (pidColumn commColumn : Option String)
    (nameLength : Nat) :
    let select := fun (tasks : List Task) (invert : Bool) =>
      t.selectTasks tasks pidColumn commColumn invert nameLength
    ((∃ out, select tasks false = .ok out) ↔
        ∀ task ∈ tasks, ∃ one, select [task] false = .ok one) ∧
      (∀ out, select tasks false = .ok out →
        ∃ keep : Stamped α (List (Cell α)) → Bool,
          (∀ row ∈ t.rows, keep row = true ↔
            ∃ task ∈ tasks, ∃ one, select [task] false = .ok one ∧ row ∈ one.rows) ∧
          out = { t with rows := t.rows.filter keep } ∧
          select tasks true = .ok { t with rows := t.rows.filter (!keep ·) }) ∧
      (∀ fault, select tasks false = .error fault → select tasks true = .error fault) ∧
      ∀ others invert, (∀ task, task ∈ others ↔ task ∈ tasks) →
        select others invert = select tasks invert := by
  intro select
  refine ⟨?_, ?_, fun fault => selectTasks_eq_error, ?_⟩
  · have hfound : ∀ tasks, (∃ out, select tasks false = .ok out) ↔
        ∃ pidAt commAt, t.TaskPositions tasks pidColumn commColumn pidAt commAt := by
      intro tasks
      simp only [select, selectTasks_eq_ok]
      exact ⟨fun ⟨_, pidAt, commAt, h, _⟩ => ⟨pidAt, commAt, h⟩,
        fun ⟨pidAt, commAt, h⟩ => ⟨_, pidAt, commAt, h, rfl⟩⟩
    simp only [hfound]
    exact exists_taskPositions
  · intro out hout
    obtain ⟨pidAt, commAt, hpositions, rfl⟩ := selectTasks_eq_ok.mp hout
    refine ⟨fun row => tasks.any (Task.fits nameLength pidAt commAt row), fun row hrow => ?_, ?_, ?_⟩
    · rw [List.any_eq_true]
      exact exists_congr fun task => and_congr_right fun htask =>
        (hpositions.mem_alone htask hrow).symm
    · simp only [Bool.bne_false]
    · refine selectTasks_eq_ok.mpr ⟨pidAt, commAt, hpositions, ?_⟩
      simp only [Bool.bne_true]
  · intro others invert hmembers
    have hany : ∀ test : Task → Bool, others.any test = tasks.any test := by
      intro test
      rw [Bool.eq_iff_iff, List.any_eq_true, List.any_eq_true]
      simp only [hmembers]
    simp only [select, selectTasks, hany]

/-- Of three rows, a task number selects the first and a command name the second. -/
theorem selectTasks_union_of_two_tasks :
    let t : Table Float := ⟨["pid", "comm"], [⟨0, [.int 10, .text "sh"]⟩,
      ⟨1, [.int 20, .text "kworker"]⟩, ⟨2, [.int 30, .text "sh"]⟩]⟩
    let tasks : List Task := [⟨some 10, none⟩, ⟨none, some "kworker"⟩]
    let select := fun (tasks : List Task) (invert : Bool) =>
      t.selectTasks tasks (some "pid") (some "comm") invert defaultNameLength
    select tasks false = .ok { t with rows := t.rows.take 2 } ∧
      (∀ task ∈ tasks, ∃ one, select [task] false = .ok one) ∧
      (∃ keep : Stamped Float (List (Cell Float)) → Bool, t.rows.filter keep = t.rows.take 2 ∧
        select tasks true = .ok { t with rows := t.rows.filter (!keep ·) }) ∧
      select (tasks ++ tasks).reverse true = select tasks true := by
  intro t tasks select
  have hkept : select tasks false = .ok { t with rows := t.rows.take 2 } := by decide +kernel
  obtain ⟨hfound, hrows, -, hmembers⟩ :=
    selectTasks_union t tasks (some "pid") (some "comm") defaultNameLength
  obtain ⟨keep, -, hkeep, hothers⟩ := hrows _ hkept
  exact ⟨hkept, hfound.mp ⟨_, hkept⟩, ⟨keep, (congrArg rows hkeep).symm, hothers⟩,
    hmembers _ true (by simp)⟩

end Table

end Selection

end StepSignal
