import StoryBuild.Proofs.Reacting
import StoryBuild.Proofs.RestrictedMode

namespace StoryBuild

/-- Whether a job for a master was started in a stretch of a trace. -/
def StartedFor (m : Path) (trace since : List Event) : Prop :=
  ∃ id q, (q == m) = true ∧ .queued id q ∈ trace ∧ .started id ∈ since

/-- Whether a job for a master was dropped in a stretch of a trace without having been started. -/
def DroppedFor (m : Path) (trace since : List Event) : Prop :=
  ∃ id q, (q == m) = true ∧ .queued id q ∈ trace ∧ .dropped id ∈ since ∧ .started id ∉ trace

/-- No batch ends that still has queued jobs. -/
def Rules.orderly : Rules :=
  { free with close := fun c => ∀ j ∈ c.jobs, j.isQueued = false }

theorem Rules.orderly_lenient : orderly.Lenient :=
  ⟨fun _ _ => trivial, fun _ _ _ => trivial, fun _ h => h⟩

/-- A job that was dropped without having been started is never started. -/
theorem Core.step_dropped {mayQueue mayRestrict : Core → Prop} {c d : Core} {id : Nat}
    (step : Step mayQueue mayRestrict c d) (ledger : c.Ledger) (dropped : .dropped id ∈ c.story)
    (waits : .started id ∉ c.story) : .started id ∉ d.story := by
  have silent (events : List Event) (none_ : .started id ∉ events) :
      .started id ∉ events ++ c.story := fun hs =>
    (List.mem_append.mp hs).elim none_ waits
  cases step with
  | queue => exact silent [_] (by simp)
  | start j now wall launch idle free first =>
    refine silent _ fun hs => ?_
    have mine := List.mem_of_find?_eq_some first
    exact ledger.dropped_gone dropped j mine (Launch.started_mem hs).symm
  | finish | abandon => exact waits
  | collect | fire | restrict | edit => exact silent [_] (by simp)
  | drain s produced => exact silent (.drained c.batch s :: produced.map Event.produced) (by simp)
  | drop => exact silent _ (by simp)

namespace Desk

variable {σ : Type}

/-- Since a trace a job for a master was started, or dropped without having been started. -/
def Answered (m : Path) (before : List Event) (d : Desk σ) : Prop :=
  ∃ since, d.trace = since ++ before ∧ (StartedFor m d.trace since ∨ DroppedFor m d.trace since)

/-- A job for a master is queued, or was since a trace. -/
def InLine (m : Path) (before : List Event) (d : Desk σ) : Prop :=
  (∃ j ∈ d.jobs, j.isQueued = true ∧ (j.path == m) = true) ∨ d.Answered m before

variable [Workshop σ] {R : Rules} {c d : Desk σ} {m : Path} {before call : List Event}

theorem step_answered (step : Step R c d) (sane : c.Sane) (h : c.Answered m before) :
    d.Answered m before := by
  obtain ⟨since, trace, answer⟩ := h
  obtain ⟨events, grown⟩ := step_grows step
  refine ⟨events ++ since, by rw [← grown, trace, List.append_assoc], ?_⟩
  have old {event : Event} (he : event ∈ c.trace) : event ∈ d.trace :=
    (step_grows step).subset he
  refine answer.imp ?_ ?_
  · rintro ⟨id, q, mine, queued, started⟩
    exact ⟨id, q, mine, old queued, List.mem_append_right _ started⟩
  · rintro ⟨id, q, mine, queued, dropped, waits⟩
    refine ⟨id, q, mine, old queued, List.mem_append_right _ dropped, fun hs => ?_⟩
    have in_story : .dropped id ∈ c.core.story :=
      List.mem_filter.mpr ⟨by rw [trace]; exact List.mem_append_left _ dropped, rfl⟩
    have kept : d.core.Kept ∧ .dropped id ∈ d.core.story ∧ .started id ∉ d.core.story := by
      refine Core.steps_preserve
        (P := fun c => c.Kept ∧ .dropped id ∈ c.story ∧ .started id ∉ c.story) ?_ (step_core step)
        ⟨sane.kept, in_story, fun hs => waits (List.mem_filter.mp hs).1⟩
      rintro a b one ⟨books, gone, never⟩
      exact ⟨Core.step_kept one books, (Core.step_story one).subset gone,
        Core.step_dropped one books.ledger gone never⟩
    exact kept.2.2 (List.mem_filter.mpr ⟨hs, rfl⟩)

/-- A master in line stays in line. -/
theorem step_inLine (step : Step Rules.orderly c d) (sane : c.Sane) (within : before <:+ c.trace)
    (h : c.InLine m before) : d.InLine m before := by
  refine h.elim ?_ fun answered => .inr (step_answered step sane answered)
  rintro ⟨j, hj, waits, mine⟩
  obtain ⟨since, trace⟩ := within
  have queued := sane.queued_mem hj
  cases step with
  | queue => exact .inl ⟨j, List.mem_append_left _ hj, waits, mine⟩
  | start k now wall launch idle free first =>
    -- The job that starts is the one in line, or another.
    by_cases same : (j.id == k.id) = true
    · refine .inr ⟨launch.events k.id ++ since, ?_, .inl ⟨j.id, j.path, mine, ?_, ?_⟩⟩
      · rw [List.append_assoc, trace]
      · exact List.mem_append_right _ queued
      · rw [beq_iff_eq.mp same]
        refine List.mem_append_left _ ?_
        cases launch <;> simp [Launch.events]
    · exact .inl ⟨j, List.mem_map.mpr ⟨j, hj, if_neg same⟩, waits, mine⟩
  | finish id k o now found =>
    -- A job that waits for its turn is not the one that is compiled.
    have other : ¬ (j.id == id) = true := by
      intro same
      have hk := List.mem_of_find?_eq_some found
      have compiling := List.find?_some found
      simp only [Bool.and_eq_true, beq_iff_eq] at compiling
      rw [sane.job_eq hj hk ((beq_iff_eq.mp same).trans compiling.1.symm)] at waits
      simp [Job.not_queued_of_compiling compiling.2] at waits
    exact .inl ⟨j, List.mem_map.mpr ⟨j, hj, if_neg other⟩, waits, mine⟩
  | abandon k given found =>
    have other : j.id ≠ k.id := by
      intro same
      have hk := List.mem_of_find?_eq_some found
      rw [sane.job_eq hj hk same] at waits
      simp [Job.not_queued_of_compiling (List.find?_some found)] at waits
    exact .inl ⟨j, List.mem_filter.mpr ⟨hj, by simpa using other⟩, waits, mine⟩
  | drain may =>
    rw [may j hj] at waits
    cases waits
  | drop =>
    have unfinished : (!j.isComplete) = true := by
      simp_all [Job.isQueued, Job.isComplete]
    refine .inr ⟨((c.jobs.filter fun k => !k.isComplete).map fun k =>
      Event.dropped k.id).reverse ++ since, ?_, .inr ⟨j.id, j.path, mine, ?_, ?_, ?_⟩⟩
    · rw [List.append_assoc, trace]
    · exact List.mem_append_right _ queued
    · refine List.mem_append_left _ (List.mem_reverse.mpr ?_)
      exact List.mem_map.mpr ⟨j, List.mem_filter.mpr ⟨hj, unfinished⟩, rfl⟩
    · intro hs
      rcases List.mem_append.mp hs with new | old
      · simp at new
      · exact sane.not_started hj waits old
  | _ => exact .inl ⟨j, hj, waits, mine⟩

/-- A queued job puts its master in line, and there it stays. -/
theorem inLine_lasting (m : Path) (before : List Event) :
    Lasting (σ := σ) Rules.orderly (fun d => d.Sane ∧ before <:+ d.trace) (InLine m before) m where
  sane inv := inv.1
  step step inv := ⟨step_sane step inv.1, inv.2.trans (step_grows step)⟩
  keeps step inv := step_inLine step inv.1 inv.2
  queued _ hj waits mine := .inl ⟨_, hj, waits, mine⟩
  unsaved := id

end Desk

namespace Act

/-- A call that ends the batch out of turn. -/
def DrainsAtOnce {σ : Type} : Act σ → Prop
  | .queueDrained _ => True
  | _ => False

end Act

namespace Engine

variable {σ : Type}

/-- Whether a master waits, or has a job that waits for its turn. -/
def Waits (e : Engine σ) (m : Path) : Prop :=
  e.pending.contains m = true ∨ ∃ j ∈ e.jobs, j.isQueued = true ∧ (j.path == m) = true

variable [Workshop σ] {m : Path}

/-- A call takes the waiting masters up while one of them is no master. -/
def Forgets (e : Engine σ) (a : Act σ) (m : Path) : Prop :=
  e.pending.contains m = true ∧ ¬ (e.act a).Waits m ∧ (e.act a).graph.isMaster m = false ∧
    Opened e.trace (e.act a).trace

theorem allows_of_close {e : Engine σ} {a : Act σ} (h : ¬ a.DrainsAtOnce) :
    e.Allows Rules.orderly a := by
  refine allows_of ?_ fun _ => trivial
  rintro now rfl
  exact absurd trivial h

theorem look_answered {before : List Event} {e : Engine σ} (a : Act σ)
    (h : (e.desk .steady true).Answered m before) :
    ((e.look a).desk .steady true).Answered m before := by
  obtain ⟨since, trace, answer⟩ := h
  obtain ⟨graph, site, events, quiet, same⟩ := e.look_desk .steady a
  have whole : e.trace = since ++ before := trace
  rw [same]
  refine ⟨events ++ since, by simp [whole], answer.imp ?_ ?_⟩
  · rintro ⟨id, q, mine, queued, started⟩
    exact ⟨id, q, mine, List.mem_append_right _ queued, List.mem_append_right _ started⟩
  · rintro ⟨id, q, mine, queued, dropped, waits⟩
    refine ⟨id, q, mine, List.mem_append_right _ queued, List.mem_append_right _ dropped, ?_⟩
    intro hs
    rcases List.mem_append.mp hs with new | old
    · cases quiet _ new
    · exact waits old

theorem act_answered {before : List Event} {e : Engine σ} (a : Act σ)
    (sane : (e.desk .steady true).Sane) (h : (e.desk .steady true).Answered m before) :
    ((e.act a).desk .steady true).Answered m before := by
  have kept := Desk.course_preserves
    (P := fun c => c.Sane ∧ c.Answered m before)
    (fun step h => ⟨Desk.step_sane step h.1, Desk.step_answered step h.1 h.2⟩)
    (act_course Rules.free_lenient (e.allows_free a)) ⟨look_sane sane a, look_answered a h⟩
  exact kept.2

/-- A call keeps a waiting master waiting, answers it, or forgets it. -/
theorem act_heeds {before : List Event} {e : Engine σ} {a : Act σ}
    (sane : (e.desk .steady true).Sane) (within : before <:+ e.trace) (h : ¬ a.DrainsAtOnce)
    (waits : e.Waits m) :
    (e.act a).Waits m ∨ ((e.act a).desk .steady true).Answered m before ∨ e.Forgets a m := by
  have looked := look_sane sane a
  have grown := e.look_grows a
  have course := act_course Rules.orderly_lenient (allows_of_close (e := e) h)
  obtain ⟨graph, site, events, -, same⟩ := e.look_desk .steady a
  rcases waits with listed | ⟨j, hj, queued, mine⟩
  · have heeded : ((e.look a).desk .steady true).Heeded (Desk.InLine m before) m e.trace := by
      refine .waits ?_
      rw [same]
      exact listed
    rcases ((Desk.inLine_lasting m before).heeded course ⟨looked, within.trans grown⟩ grown
      (by simp [desk]) heeded).at_rest rfl with
      listed' | (queued | answered) | ⟨gone, opened⟩
    · exact .inl (.inl listed')
    · exact .inl (.inr queued)
    · exact .inr (.inl answered)
    · by_cases still : (e.act a).Waits m
      · exact .inl still
      · exact .inr (.inr ⟨listed, still, gone, opened⟩)
  · have in_line : ((e.look a).desk .steady true).InLine m before := by
      refine .inl ⟨j, ?_, queued, mine⟩
      rw [same]
      exact hj
    rcases (Desk.inLine_lasting m before).course course ⟨looked, within.trans grown⟩ in_line with
      queued | answered
    · exact .inl (.inr queued)
    · exact .inr (.inl answered)

theorem run_heeds {before : List Event} (acts : List (Act σ)) {e : Engine σ}
    (sane : (e.desk .steady true).Sane) (within : before <:+ e.trace)
    (h : ∀ a ∈ acts, ¬ a.DrainsAtOnce)
    (owed : e.Waits m ∨ (e.desk .steady true).Answered m before) :
    (e.run acts).Waits m ∨ ((e.run acts).desk .steady true).Answered m before ∨
      ∃ front a back, acts = front ++ a :: back ∧ (e.run front).Forgets a m := by
  induction acts generalizing e with
  | nil => exact owed.imp_right .inl
  | cons a rest ih =>
    have first : (e.act a).Waits m ∨ ((e.act a).desk .steady true).Answered m before ∨
        e.Forgets a m := by
      rcases owed with waits | answered
      · exact act_heeds sane within (h a (by simp)) waits
      · exact .inr (.inl (act_answered a sane answered))
    have later (owed : (e.act a).Waits m ∨ ((e.act a).desk .steady true).Answered m before) :=
      ih (act_sane sane a) (within.trans (e.act_grows a))
        (fun b hb => h b (List.mem_cons_of_mem _ hb)) owed
    have further (owed : (e.act a).Waits m ∨ ((e.act a).desk .steady true).Answered m before) :
        (e.run (a :: rest)).Waits m ∨ ((e.run (a :: rest)).desk .steady true).Answered m before ∨
          ∃ front b back, a :: rest = front ++ b :: back ∧ (e.run front).Forgets b m := by
      refine (later owed).imp_right fun others => others.imp_right ?_
      rintro ⟨front, b, back, rfl, forgets⟩
      exact ⟨a :: front, b, back, rfl, forgets⟩
    rcases first with waits | answered | forgets
    · exact further (.inl waits)
    · exact further (.inr answered)
    · exact .inr (.inr ⟨[], a, rest, rfl, forgets⟩)

/-- The masters that a change affects wait, or are in line, as soon as the change is known. -/
theorem sourceChanged_heeds {e : Engine σ} {p : Path} (sane : (e.desk .steady true).Sane)
    (order : InPathOrder e.graph.files) (on : e.options.compileOnChange = true)
    (affected : m ∈ (e.sourceChanged p).1) (automatic : e.options.manualOnly m = false) :
    (e.sourceChanged p).2.Waits m ∨
      ((e.sourceChanged p).2.desk .steady true).Answered m e.trace := by
  have looked := look_sane sane (.sourceChanged p)
  have grown := e.look_grows (.sourceChanged p)
  rcases sourceChanged_lasts Rules.orderly_lenient (Desk.inLine_lasting m e.trace)
    ⟨looked, grown⟩ order on affected automatic with waits | queued | answered
  · exact .inl (.inl waits)
  · exact .inl (.inr queued)
  · exact .inr answered

theorem act_inPathOrder {e : Engine σ} (a : Act σ) (h : InPathOrder e.graph.files) :
    InPathOrder (e.act a).graph.files := by
  have looked : InPathOrder (e.look a).graph.files :=
    look_graph (P := fun g => InPathOrder g.files)
      (fun p _ => FileGraph.refresh_inPathOrder h e.site p)
      (FileGraph.rebuild_inPathOrder h e.site) h
  exact FileGraph.inPathOrder_of_linkage looked
    (Desk.course_links (act_course Rules.free_lenient (e.allows_free a)))

theorem run_inPathOrder (acts : List (Act σ)) {e : Engine σ} (h : InPathOrder e.graph.files) :
    InPathOrder (e.run acts).graph.files :=
  run_preserves (P := fun e => InPathOrder e.graph.files) (fun a _ _ => act_inPathOrder a) h

/-- When a change of a source affects a master, then after every later call the master waits or has
a queued job, unless since the change a job was started for it, a queued job of it was dropped, or
the waiting masters were taken up while it was no master. No batch is ended out of turn. -/
theorem run_keeps_changes {graph : FileGraph} {options : EngineOptions} {site : σ} {dawn : Nat}
    {before after : List (Act σ)} {p : Path} (order : InPathOrder graph.files)
    (on : options.compileOnChange = true) (automatic : options.manualOnly m = false)
    (affected : m ∈ (((fresh graph options site dawn).run before).sourceChanged p).1)
    (in_turn : ∀ a ∈ after, ¬ a.DrainsAtOnce) :
    let start := (fresh graph options site dawn).run before
    let changed := (start.sourceChanged p).2
    let now := changed.run after
    ∃ since, now.trace = since ++ start.trace ∧
      (now.Waits m ∨ StartedFor m now.trace since ∨ DroppedFor m now.trace since ∨
        ∃ front a back, after = front ++ a :: back ∧ (changed.run front).Forgets a m) := by
  intro start changed now
  have sane : (start.desk .steady true).Sane :=
    run_sane (fresh_sane graph options site dawn) before
  have ordered : InPathOrder start.graph.files := run_inPathOrder before order
  have kept_options : start.options = options := run_options _ before
  have owed := sourceChanged_heeds sane ordered (kept_options ▸ on) affected
    (kept_options ▸ automatic)
  have changed_sane : (changed.desk .steady true).Sane := act_sane sane (.sourceChanged p)
  have within : start.trace <:+ changed.trace := start.act_grows (.sourceChanged p)
  obtain ⟨since, trace⟩ : start.trace <:+ now.trace := within.trans (changed.run_grows after)
  refine ⟨since, trace.symm, ?_⟩
  rcases run_heeds after changed_sane within in_turn owed with
    waits | ⟨since', trace', answer⟩ | forgets
  · exact .inl waits
  · obtain rfl : since' = since := List.append_cancel_right (trace'.symm.trans trace.symm)
    exact .inr (answer.elim .inl fun dropped => .inr (.inl dropped))
  · exact .inr (.inr (.inr forgets))

/-- A master changes while it is compiled. The compile ends, and the next look takes it up. -/
theorem change_during_compile_kept :
    let start := (fresh twoOwners {} twoOwnersSite 0).run [.compileFile (.ofText "x.ink") false]
    let after : List (Act Sandbox) := [.poll 0]
    ∃ m, m.text = "x.ink" ∧ m ∈ (start.sourceChanged (.ofText "x.ink")).1 ∧
      let changed := (start.sourceChanged (.ofText "x.ink")).2
      let now := changed.run after
      ∃ since, now.trace = since ++ start.trace ∧
        (now.Waits m ∨ StartedFor m now.trace since ∨ DroppedFor m now.trace since ∨
          ∃ front a back, after = front ++ a :: back ∧ (changed.run front).Forgets a m) := by
  intro start after
  have order : InPathOrder twoOwners.files := by
    unfold InPathOrder
    decide +kernel
  have masters : (start.sourceChanged (.ofText "x.ink")).1.map Path.text = ["x.ink"] := by
    decide +kernel
  have listed : "x.ink" ∈ (start.sourceChanged (.ofText "x.ink")).1.map Path.text := by
    rw [masters]
    exact List.mem_cons_self
  obtain ⟨m, affected, text⟩ := List.mem_map.mp listed
  refine ⟨m, text, affected, ?_⟩
  exact run_keeps_changes order rfl rfl affected (by simp [Act.DrainsAtOnce, after])

end Engine

end StoryBuild
