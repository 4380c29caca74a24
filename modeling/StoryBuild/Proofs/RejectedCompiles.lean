import StoryBuild.MemoryDisk
import StoryBuild.Workbench
import StoryBuild.Job
import StoryBuild.Proofs.DiagnosticLines

namespace StoryBuild

/-- Whether a line starts with a mark, behind blanks if there are any. -/
def Opens (mark line : String) : Prop :=
  ∃ lead rest, AllBlank lead ∧ line.toList = lead ++ (mark.toList ++ rest)

/-- A mark that starts with no blank stands where the blanks end. -/
theorem opens_iff {mark line : String} {c : Char} (first : mark.toList.head? = some c)
    (solid : isBlank c = false) :
    Opens mark line ↔ mark.toList.isPrefixOf (trimStart line.toList) = true := by
  rw [List.isPrefixOf_iff_prefix]
  constructor
  · rintro ⟨lead, rest, blank, text⟩
    obtain ⟨more, whole⟩ := List.head?_eq_some_iff.mp first
    rw [text, trimStart_append blank, whole, List.cons_append, trimStart_cons solid]
    exact ⟨rest, rfl⟩
  · rintro ⟨rest, front⟩
    obtain ⟨lead, blank, whole⟩ := exists_trimStart line.toList
    exact ⟨lead, rest, blank, by rw [front, ← whole]⟩

theorem announcesError_iff {line : String} : announcesError line = true ↔ Opens "ERROR" line :=
  (opens_iff (c := 'E') rfl rfl).symm

namespace Diagnostic

variable {line : String} {lines : List String}

/-- A diagnostic has the severity that the tag of its line stands for. -/
theorem readTag_of_ofLine? {d : Diagnostic} (h : ofLine? line = some d) :
    ∃ rest, readTag (trimStart line.toList) = some (d.severity, rest) := by
  unfold ofLine? at h
  obtain ⟨⟨severity, rest⟩, tagged, h⟩ := Option.bind_eq_some_iff.mp h
  refine ⟨rest, ?_⟩
  dsimp only at h
  split at h
  next =>
    split at h
    next => cases h
    next => rw [tagged, ← Option.some.inj h]
  next =>
    split at h
    next => cases h
    next => rw [tagged, ← Option.some.inj h]

/-- A line with nothing but blanks starts with no tag. -/
theorem not_isBlankText {severity : Severity} {lead rest : List Char}
    (text : line.toList = lead ++ (severity.tag ++ ':' :: rest)) :
    isBlankText line.toList = false := by
  refine Bool.eq_false_iff.mpr fun blank => ?_
  have colon := List.all_eq_true.mp blank ':' (by simp [text])
  exact absurd colon (by decide)

/-- Among lines without newlines an error is found if some line has the tag of errors. -/
theorem error_mem_ofLines_iff (one_line : ∀ line ∈ lines, '\n' ∉ line.toList) :
    (∃ d ∈ ofLines lines, d.severity = .error) ↔ ∃ line ∈ lines, Opens "ERROR:" line := by
  constructor
  · rintro ⟨d, hd, error⟩
    obtain ⟨line, spoken, found⟩ := List.mem_filterMap.mp hd
    obtain ⟨rest, tagged⟩ := readTag_of_ofLine? found
    obtain ⟨lead, blank, whole⟩ := exists_trimStart line.toList
    rw [readTag_eq_some.mp tagged, error] at whole
    exact ⟨line, (List.mem_filter.mp spoken).1, lead, rest, blank, whole⟩
  · rintro ⟨line, hline, lead, rest, blank, text⟩
    have tag : line.toList = lead ++ (Severity.error.tag ++ ':' :: rest) := text
    obtain ⟨d, found⟩ :=
      Option.isSome_iff_exists.mp (ofLine?_isSome blank tag (one_line line hline))
    have spoken : line ∈ spokenLines lines :=
      List.mem_filter.mpr ⟨hline, by rw [not_isBlankText tag]; rfl⟩
    refine ⟨d, List.mem_filterMap.mpr ⟨line, spoken, found⟩, ?_⟩
    obtain ⟨rest', tagged⟩ := readTag_of_ofLine? found
    rw [tag, readTag_trimStart blank] at tagged
    exact (congrArg Prod.fst (Option.some.inj tagged)).symm

end Diagnostic

theorem mem_utf8Encode {c : Char} {cs : List Char} (mem : c ∈ cs) :
    ∀ b ∈ String.utf8EncodeChar c, b ∈ cs.utf8Encode.data.toList := by
  intro b hb
  obtain ⟨front, back, rfl⟩ := List.append_of_mem mem
  rw [List.utf8Encode_append, List.utf8Encode_cons, List.utf8Encode_singleton]
  simp [ByteArray.data_append, hb]

/-- A text has a newline only if its bytes have one. -/
theorem lineText_one_line {bytes : List UInt8} {line : String} (read : lineText bytes = some line)
    (plain : 10 ∉ bytes) : '\n' ∉ line.toList := by
  intro mem
  refine plain ?_
  have coded : line.toByteArray = ⟨bytes.toArray⟩ := by
    unfold lineText decodeText at read
    split at read
    next text valid =>
      obtain rfl := Option.some.inj read
      unfold String.fromUTF8? at valid
      split at valid
      next => rw [← Option.some.inj valid, String.fromUTF8]
      next => cases valid
    next => cases read
  have byte := mem_utf8Encode mem 10 (by decide)
  rwa [String.utf8Encode_toList, coded] at byte

/-- Whether lines and the bytes of the line that comes next are free of newlines. -/
structure LineReader.Apart (state : List String × LineReader) : Prop where
  lines : ∀ line ∈ state.1, '\n' ∉ line.toList
  started : 10 ∉ state.2.started

namespace LineReader

variable {state : List String × LineReader}

theorem Apart.feed (apart : Apart state) (b : UInt8) : Apart (feed state b) := by
  obtain ⟨lines, reader⟩ := state
  unfold LineReader.feed
  dsimp only
  split
  next => exact apart
  next =>
    split
    next =>
      split
      next line read =>
        refine ⟨List.forall_mem_append.mpr ⟨apart.lines, ?_⟩, List.not_mem_nil⟩
        rw [List.forall_mem_singleton]
        refine lineText_one_line read fun mem => apart.started ?_
        have kept := List.mem_reverse.mp mem
        unfold dropReturnByte at kept
        split at kept
        next from_ => exact from_ ▸ List.mem_cons_of_mem _ kept
        next => exact kept
      next => exact ⟨apart.lines, List.not_mem_nil⟩
    next other =>
      refine ⟨apart.lines, fun mem => ?_⟩
      rcases List.mem_cons.mp mem with same | mem
      · exact other same.symm
      · exact apart.started mem

theorem Apart.foldl (apart : Apart state) (bytes : List UInt8) :
    Apart (bytes.foldl LineReader.feed state) := by
  induction bytes generalizing state with
  | nil => exact apart
  | cons b bytes ih => exact ih (apart.feed b)

theorem finish_one_line {r : LineReader} (plain : 10 ∉ r.started) :
    ∀ line ∈ r.finish, '\n' ∉ line.toList := by
  intro line hline
  unfold finish at hline
  split at hline
  next => exact lineText_one_line (Option.mem_toList.mp hline) (by simpa using plain)
  next => cases hline

end LineReader

/-- Whether the lines and the two readers of a relay are free of newlines. -/
structure Relay.Apart (r : Relay) : Prop where
  out : LineReader.Apart (r.lines, r.out)
  err : LineReader.Apart (r.lines, r.err)

theorem Relay.Apart.feed {r : Relay} (apart : r.Apart) (piece : Channel × List UInt8) :
    (r.feed piece).Apart := by
  have read {reader : LineReader} (plain : 10 ∉ reader.started) :
      LineReader.Apart (piece.2.foldl LineReader.feed ([], reader)) :=
    LineReader.Apart.foldl ⟨List.forall_mem_nil _, plain⟩ piece.2
  unfold Relay.feed
  split
  · have new := read apart.out.started
    have lines := List.forall_mem_append.mpr ⟨apart.out.lines, new.lines⟩
    exact ⟨⟨lines, new.started⟩, ⟨lines, apart.err.started⟩⟩
  · have new := read apart.err.started
    have lines := List.forall_mem_append.mpr ⟨apart.err.lines, new.lines⟩
    exact ⟨⟨lines, apart.out.started⟩, ⟨lines, new.started⟩⟩

/-- The lines of a program's output hold no newline. -/
theorem relayedLines_one_line (output : List (Channel × List UInt8)) :
    ∀ line ∈ relayedLines output, '\n' ∉ line.toList := by
  have relayed (r : Relay) (apart : r.Apart) : (output.foldl Relay.feed r).Apart := by
    induction output generalizing r with
    | nil => exact apart
    | cons piece output ih => exact ih _ (apart.feed piece)
  have none_ : ∀ line ∈ ([] : List String), '\n' ∉ line.toList := List.forall_mem_nil _
  have apart := relayed {} ⟨⟨none_, List.not_mem_nil⟩, ⟨none_, List.not_mem_nil⟩⟩
  unfold relayedLines
  dsimp only
  rw [List.forall_mem_append, List.forall_mem_append]
  exact ⟨⟨apart.out.lines, LineReader.finish_one_line apart.out.started⟩,
    LineReader.finish_one_line apart.err.started⟩

/-- Whether a job has come to its end with neither an error nor a failure. -/
def Job.Unexplained (j : Job) : Prop :=
  (∀ d ∈ Diagnostic.ofLines j.lines, d.severity ≠ .error) ∧ j.unhandled = []

namespace CommandCompiler

variable {σ : Type} [Machine σ]

/-- A compile either fails without a line or relays the lines of a run of the program, and it
rejects the source if the program failed and announced an error. -/
theorem compile_cases (c : CommandCompiler) (r : Request) (cancelled : Bool) (patience : Nat)
    (s : σ) : let a := (c.compile r cancelled patience s).1
    (a.lines = [] ∧ ∃ e, a.result = .error e) ∨
      ∃ run : ChildRun, a.lines = relayedLines run.output ∧
        (a.result = .ok none → run.exit.isSuccess = false ∧ a.lines.any announcesError = true) := by
  unfold compile
  dsimp only
  split
  next => exact .inl ⟨rfl, _, rfl⟩
  next s _ =>
    split
    next => exact .inl ⟨rfl, _, rfl⟩
    next run after _ =>
      split
      next => exact .inl ⟨rfl, _, rfl⟩
      next =>
        refine .inr ⟨run, ?_⟩
        unfold collect
        dsimp only
        split
        next =>
          split
          next => exact ⟨rfl, nofun⟩
          next => exact ⟨rfl, nofun⟩
        next failed =>
          refine ⟨rfl, fun rejected => ⟨by simpa using failed, ?_⟩⟩
          unfold verdict at rejected
          split at rejected
          next announced => exact announced
          next => cases rejected

theorem compile_one_line (c : CommandCompiler) (r : Request) (cancelled : Bool) (patience : Nat)
    (s : σ) : ∀ line ∈ (c.compile r cancelled patience s).1.lines, '\n' ∉ line.toList := by
  rcases c.compile_cases r cancelled patience s with ⟨none_, -⟩ | ⟨run, relayed, -⟩
  · rw [none_]
    exact List.forall_mem_nil _
  · rw [relayed]
    exact relayedLines_one_line run.output

/-- What comes of a compile for the engine has its lines, and without an artifact it has a failure
unless the source was rejected. -/
theorem outcome_of_answer {a : Answer} {r : Request} {site : σ} {here stopped : Bool} {o : Outcome}
    (played : (Workbench.scriptOf a).play site r here stopped [] = .finished o) :
    o.lines = a.lines ∧ (o.artifact = none → (o.unhandled = [] ↔ a.result = .ok none)) := by
  unfold Workbench.scriptOf at played
  split at played
  next content compiled =>
    obtain rfl := Progress.finished.inj played
    exact ⟨List.nil_append _, nofun⟩
  next rejected =>
    obtain rfl := Progress.finished.inj played
    exact ⟨List.nil_append _, fun _ => iff_of_true rfl rejected⟩
  next e failed =>
    obtain rfl := Progress.finished.inj played
    exact ⟨List.nil_append _, fun _ => iff_of_false (List.cons_ne_nil _ _) (by simp [failed])⟩

/-- When a rejected compile is explained. A compile rejects a source only if a line starts with the
word for errors; an error is read from the lines only if that word has a colon behind it. So a job
that ends without an artifact leaves neither an error nor a failure behind just if the compile was
rejected and no line has the whole tag. -/
theorem rejection_unexplained_iff (c : CommandCompiler) (r : Request) (cancelled : Bool)
    (patience : Nat) (s : σ) : let a := (c.compile r cancelled patience s).1
    (a.result = .ok none → (∃ line ∈ a.lines, Opens "ERROR" line) ∧
      ((∃ d ∈ Diagnostic.ofLines a.lines, d.severity = .error) ↔
        ∃ line ∈ a.lines, Opens "ERROR:" line)) ∧
    ∀ (site : σ) (here stopped : Bool) (o : Outcome) (j : Job) (now : Nat),
      (Workbench.scriptOf a).play site r here stopped [] = .finished o →
      (j.finish o now).artifact = none →
      ((j.finish o now).Unexplained ↔
        a.result = .ok none ∧ ∀ line ∈ a.lines, ¬ Opens "ERROR:" line) := by
  intro a
  have one_line : ∀ line ∈ a.lines, '\n' ∉ line.toList :=
    c.compile_one_line r cancelled patience s
  have explained := Diagnostic.error_mem_ofLines_iff one_line
  refine ⟨fun rejected => ⟨?_, explained⟩, fun site here stopped o j now played none_ => ?_⟩
  · rcases c.compile_cases r cancelled patience s with ⟨-, e, failed⟩ | ⟨run, -, announced⟩
    · exact absurd (rejected.symm.trans failed) nofun
    · obtain ⟨line, hline, word⟩ := List.any_eq_true.mp (announced rejected).2
      exact ⟨line, hline, announcesError_iff.mp word⟩
  · obtain ⟨lines, unhandled⟩ := outcome_of_answer played
    have read : (∀ d ∈ Diagnostic.ofLines o.lines, d.severity ≠ .error) ↔
        ∀ line ∈ a.lines, ¬ Opens "ERROR:" line := by
      rw [lines]
      simpa only [not_exists, not_and] using not_congr explained
    change (_ ∧ _) ↔ _
    rw [and_comm, ← read, ← unhandled none_]
    rfl

/-- A machine on which every program runs in the same way and leaves no file. -/
@[reducible] def runsAs (run : ChildRun) : Machine MemoryDisk where
  launch d _ _ _ _ := (.ok run, d)
  readBytes _ _ := .error .noEntry
  removeFile _ _ := .error .noEntry
  makeDirs d _ := .ok d

/-- A run that fails after a line about an error, with no colon behind the word. -/
def untaggedRun : ChildRun where
  output := [(.out, "ERROR in main.ink\n".toUTF8.toList)]
  exit := .status 1

/-- A compiler program. -/
def plainCompiler : CommandCompiler := ⟨"compiler", [], .ofText "/scratch"⟩

/-- A request for a story. -/
def mainRequest : Request where
  job := 1
  master := .ofText "main.ink"
  input := .ofText "/story/main.ink"
  output := .ofText "/story/main.json"
  source := ""
  root := .ofText "/story"
  includes := []

/-- The answer of the program with this run. -/
def untaggedAnswer : Answer :=
  (@compile MemoryDisk (runsAs untaggedRun) plainCompiler mainRequest false forever .empty).1

/-- The job of this compile ends as if nothing was wrong. -/
theorem untagged_error_unexplained :
    untaggedAnswer.result = .ok none ∧ untaggedAnswer.lines = ["ERROR in main.ink"] ∧
      ∀ j : Job, (j.finish { lines := untaggedAnswer.lines } 0).Unexplained := by
  have lines : untaggedAnswer.lines = ["ERROR in main.ink"] := by decide +kernel
  have rejected : untaggedAnswer.result = .ok none := by
    have word : untaggedAnswer.lines.any announcesError = true := by
      rw [lines]
      decide
    exact if_pos word
  have script : Workbench.scriptOf untaggedAnswer = .reject untaggedAnswer.lines := by
    unfold Workbench.scriptOf
    rw [rejected]
  have untagged : ∀ line ∈ untaggedAnswer.lines, ¬ Opens "ERROR:" line := by
    rw [lines, List.forall_mem_singleton, opens_iff (c := 'E') rfl rfl]
    decide
  refine ⟨rejected, lines, fun j => ?_⟩
  exact ((@rejection_unexplained_iff MemoryDisk (runsAs untaggedRun) plainCompiler mainRequest false
    forever .empty).2 .empty false false { lines := untaggedAnswer.lines } j 0
    (congrArg (Script.play _ _ _ _ _) script) rfl).mpr ⟨rejected, untagged⟩

end CommandCompiler

end StoryBuild
