import StoryBuild.Proofs.ArtifactTimes
import StoryBuild.Proofs.Looking

namespace StoryBuild

/-- Whether the disk is as the engine left it when a call begins. -/
def Act.IsCall {σ : Type} : Act σ → Prop
  | .siteChanged _ => False
  | _ => True

/-- What happens around an engine over a disk in memory: a file is written, touched or deleted from
outside, writes of a path are to be refused, a master gets a script, or the engine is called. -/
inductive Happening where
  | write (p : Path) (content : ByteArray)
  | touch (p : Path)
  | delete (p : Path)
  | refuse (p : Path) (times : Nat)
  | script (master : Path) (s : Script)
  | call (a : Act Sandbox) (inside : a.IsCall)

/-- What is kept of a run: the changes of files from outside, and the events of the engine. -/
inductive Moment where
  | changed (p : Path)
  | told (event : Event)

/-- The place of the file that a moment changed. -/
def Moment.place? : Moment → Option (List Part)
  | .changed p => some p.parts
  | .told (.wrote p _) => some p.parts
  | _ => none

/-- The moments after the last change of a place. -/
def sinceChange (place : List Part) (history : List Moment) : List Moment :=
  history.takeWhile fun x => x.place? ≠ some place

/-- An engine with the history of its disk, the latest moment first. -/
structure Chronicle where
  engine : Engine Sandbox
  history : List Moment

namespace Engine

/-- The engine after something happened. -/
def happen (e : Engine Sandbox) : Happening → Engine Sandbox
  | .write p content => { e with site := e.site.mapDisk (·.addFile p content) }
  | .touch p => { e with site := e.site.mapDisk (·.touch p) }
  | .delete p => { e with site := e.site.mapDisk (·.remove p) }
  | .refuse p times => { e with site := e.site.mapDisk (·.failWrite p times) }
  | .script master s => { e with site := e.site.setScript master s }
  | .call a _ => e.act a

/-- The moments that this adds. -/
def moments (e : Engine Sandbox) : Happening → List Moment
  | .write p _ => [.changed p]
  | .touch p => [.changed p]
  | .call a _ => ((e.act a).trace.take ((e.act a).trace.length - e.trace.length)).map .told
  | _ => []

end Engine

namespace Chronicle

/-- An engine that has done nothing yet. -/
def fresh (graph : FileGraph) (options : EngineOptions) (site : Sandbox) (dawn : Nat) : Chronicle :=
  ⟨Engine.fresh graph options site dawn, []⟩

/-- A chronicle with one happening more. -/
def next (c : Chronicle) (h : Happening) : Chronicle :=
  ⟨c.engine.happen h, c.engine.moments h ++ c.history⟩

/-- A chronicle with many happenings more. -/
def after (c : Chronicle) (happenings : List Happening) : Chronicle :=
  happenings.foldl next c

end Chronicle

namespace MemoryDisk

variable {d d' : MemoryDisk} {history : List Moment} {place : List Part}

theorem Timely.touch (h : d.Timely) (p : Path) : (d.touch p).Timely := by
  refine ⟨?_, h.inPast.touch p⟩
  unfold MemoryDisk.touch
  split <;> exact h.faultless

/-- The times on a disk go with a history: what was changed since the last change of a place has a
later time than the place. -/
structure Dated (d : MemoryDisk) (history : List Moment) : Prop where
  timely : d.Timely
  later : ∀ place q, (∃ x ∈ sinceChange place history, x.place? = some q) →
    ∀ t u, d.timeAt place = some t → d.timeAt q = some u → t < u

/-- A change of one place makes it the latest one. -/
theorem Dated.change (h : d.Dated history) {x : Moment} (changed : x.place? = some place)
    (timely : d'.Timely) (new : ∀ u, d'.timeAt place = some u → d.clock < u)
    (others : ∀ q, q ≠ place → d'.timeAt q = d.timeAt q) : d'.Dated (x :: history) := by
  refine ⟨timely, fun p q among t u at_p at_q => ?_⟩
  obtain ⟨y, hy, changed_y⟩ := among
  by_cases here_ : x.place? = some p
  · simp [sinceChange, here_] at hy
  · have apart : p ≠ place := by
      rintro rfl
      exact here_ changed
    have old : d.timeAt p = some t := others p apart ▸ at_p
    rw [sinceChange, List.takeWhile_cons_of_pos (by simpa using here_)] at hy
    by_cases latest : q = place
    · have := h.timely.past p t old
      have := new u (latest ▸ at_q)
      omega
    · -- It was not this moment that changed the other place.
      rcases List.mem_cons.mp hy with rfl | hy
      · exact absurd (Option.some.inj (changed_y.symm.trans changed)) latest
      · exact h.later p q ⟨y, hy, changed_y⟩ t u old (others q latest ▸ at_q)

/-- Moments that change nothing are no matter. -/
theorem Dated.quiet (h : d.Dated history) {x : Moment} (none_ : x.place? = none) :
    d.Dated (x :: history) := by
  refine ⟨h.timely, fun p q among => ?_⟩
  obtain ⟨y, hy, changed⟩ := among
  rw [sinceChange, List.takeWhile_cons_of_pos (by simp [none_])] at hy
  rcases List.mem_cons.mp hy with rfl | hy
  · rw [none_] at changed
    cases changed
  · exact h.later p q ⟨y, hy, changed⟩

/-- Nor is it if files vanish. -/
theorem Dated.fewer (h : d.Dated history) (timely : d'.Timely)
    (old : ∀ q t, d'.timeAt q = some t → d.timeAt q = some t) : d'.Dated history :=
  ⟨timely, fun p q among t u at_p at_q => h.later p q among t u (old p t at_p) (old q u at_q)⟩

theorem Dated.write (h : d.Dated history) (p : Path) (content : ByteArray) {x : Moment}
    (changed : x.place? = some p.parts) : (d.addFile p content).Dated (x :: history) := by
  refine h.change changed (h.timely.addFile p content) (fun u at_ => ?_) fun q other => ?_
  · rw [timeAt_addFile, if_pos rfl] at at_
    have := Option.some.inj at_
    omega
  · rw [timeAt_addFile, if_neg (Ne.symm other)]

theorem Dated.touch (h : d.Dated history) (p : Path) :
    (d.touch p).Dated (.changed p :: history) := by
  refine h.change rfl (h.timely.touch p) (fun u at_ => ?_) fun q other => ?_
  · rw [timeAt_touch, if_pos rfl] at at_
    obtain ⟨-, -, rfl⟩ := Option.map_eq_some_iff.mp at_
    omega
  · rw [timeAt_touch, if_neg (Ne.symm other)]

theorem Dated.remove (h : d.Dated history) (p : Path) : (d.remove p).Dated history := by
  refine h.fewer (h.timely.remove p) fun q t there => ?_
  rw [timeAt_remove] at there
  split at there
  next => cases there
  next => exact there

end MemoryDisk

/-- The times on the disk go with the history, and the trace with what was told since a call began. -/
def DatedSince (base : List Event) (history : List Moment) (s : Sandbox) (trace : List Event) :
    Prop :=
  ∃ events, trace = events ++ base ∧ s.disk.Dated (events.map .told ++ history)

theorem datedSince_carried (base : List Event) (history : List Moment) :
    Carried (DatedSince base history) where
  wrote {s s' trace p content} h written := by
    obtain ⟨events, rfl, dated⟩ := h
    rw [Sandbox.write_ok written]
    exact ⟨.wrote p content :: events, rfl, dated.write p content rfl⟩
  refused {s s' trace p content cause} h refused := by
    obtain ⟨events, rfl, dated⟩ := h
    obtain ⟨writeFaults, rfl⟩ := Sandbox.write_refused refused
    exact ⟨events, rfl, dated.fewer ⟨dated.timely.faultless, dated.timely.past⟩ fun _ _ => id⟩
  timed {s trace} p h := by
    obtain ⟨events, rfl, dated⟩ := h
    rw [Sandbox.steady dated.timely p]
    exact ⟨events, rfl, dated⟩
  compiled h how := by
    cases how <;> exact h
  told {s trace event} h silent := by
    obtain ⟨events, rfl, dated⟩ := h
    refine ⟨event :: events, rfl, dated.quiet ?_⟩
    cases event <;> first | rfl | cases silent

namespace Chronicle

variable {c : Chronicle}

/-- The times on the disk go with the history. -/
def Dated (c : Chronicle) : Prop :=
  c.engine.site.disk.Dated c.history

theorem next_dated (h : c.Dated) (x : Happening) : (c.next x).Dated := by
  cases x with
  | write p content => exact MemoryDisk.Dated.write h p content rfl
  | touch p => exact MemoryDisk.Dated.touch h p
  | delete p => exact MemoryDisk.Dated.remove h p
  | refuse p times =>
    exact MemoryDisk.Dated.fewer h ⟨h.timely.faultless, h.timely.past⟩ fun _ _ => id
  | script master s => exact h
  | call a inside =>
    obtain ⟨events, trace, dated⟩ := (datedSince_carried c.engine.trace c.history).act (a := a)
      (fun site same => by rw [same] at inside; exact inside.elim) ⟨[], rfl, h⟩
    have told : c.engine.moments (.call a inside) = events.map .told := by
      unfold Engine.moments
      dsimp only
      rw [trace, List.length_append, Nat.add_sub_cancel, List.take_left]
    change (c.engine.act a).site.disk.Dated (c.engine.moments (.call a inside) ++ c.history)
    rw [told]
    exact dated

/-- In every run the times on the disk go with the history. -/
theorem after_dated (happenings : List Happening) (h : c.Dated) : (c.after happenings).Dated := by
  induction happenings generalizing c with
  | nil => exact h
  | cons x rest ih => exact ih (next_dated h x)

theorem fresh_dated {graph : FileGraph} {options : EngineOptions} {site : Sandbox} {dawn : Nat}
    (timely : site.disk.Timely) : (fresh graph options site dawn).Dated :=
  ⟨timely, fun _ _ among => by simp [fresh, sinceChange] at among⟩

end Chronicle

end StoryBuild
