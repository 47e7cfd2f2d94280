import Barrage.Proofs.Machine.TwinFrames
import Barrage.Proofs.Pattern.TwinPatterns
import Barrage.Proofs.Project.Plays

/-!
# Patterns that are played twice

Patterns are played one after another over the same host objects, once with code and once with units for their
expressions. Clock, sources and tasks are new for each of them, so that the two runs of a pattern begin abreast if the
hosts do, and the hosts that they leave behind go abreast into the next pattern. Whether a timer was named before is
thus a question about the deeds of all patterns that came first, and so is the condition: the record of all stages.

## Main definitions

* `Project.recordOfStages` — the deeds of all patterns

## Main results

* `Project.play_twins` — a pattern is played twice
* `Project.playAll_twins` — all patterns are, and the same phases are completed
-/

namespace Barrage.Project

open Machine

variable {base hosts fewer later : Hosts} {settings : Settings} {boss : EntityHandle} {pattern pattern' : Pattern Callable}
  {patterns patterns' : List (String × Pattern Callable)} {record : List Note} {completions : List Completion}

/-- The deeds of patterns that are played one after another, each up to the frame in which it has an answer. -/
def recordOfStages (settings : Settings) (boss : EntityHandle) (hosts : Hosts)
    (patterns : List (String × Pattern Callable)) : List Note :=
  (stages settings boss hosts patterns).flatMap fun m => m.recordToEnd settings.maxFrames

/-- The runs of a pattern begin abreast. -/
theorem paired_stage (settings : Settings) (boss : EntityHandle) (h : Hosts.Abreast base record hosts fewer)
    (hpattern : pattern.Twins base pattern') :
    Paired base record (stage settings boss hosts pattern) (stage settings boss fewer pattern') := by
  obtain ⟨pairs, rfl, rfl⟩ := hpattern
  have hclock : (clockTask (.ofSource 0)).Twin base (clockTask (.ofSource 0)) :=
    .andThen (.frames 1 _) (.advanceTimers _)
  have hroot : (rootTask (pairs.map TwinPair.direct).toNode .none).Twin base
      (rootTask (pairs.map TwinPair.served).toNode .none) := .andThen (.start pairs.toNode _) .report
  exact ⟨⟨rfl, rfl, .cons hclock (.cons hroot .nil), ⟨rfl, rfl, rfl, rfl, h.covers.entities⟩, h, .none⟩, .nil⟩

/-- A pattern that is played to its end is played to its end with units as well, and the hosts go abreast to the next. -/
theorem play_twins (h : Hosts.Abreast base record hosts fewer) (hpattern : pattern.Twins base pattern')
    (hnames : NamesAtZero (record ++ (stage settings boss hosts pattern).recordToEnd settings.maxFrames))
    (hplay : play settings boss hosts pattern = .ok (completions, later)) :
    ∃ later', play settings boss fewer pattern' = .ok (completions, later') ∧
      Hosts.Abreast base (record ++ (stage settings boss hosts pattern).recordToEnd settings.maxFrames) later later' := by
  have hend : ((stage settings boss hosts pattern).runToEnd settings.maxFrames).1 = .ok (.ok ()) := by
    unfold play at hplay
    split at hplay
    · cases hplay
    · cases hplay
    · rename_i hrun
      rw [hrun]
  obtain ⟨hend', hlast⟩ := (paired_stage settings boss h hpattern).runToEnd settings.maxFrames hnames hend
  obtain ⟨rfl, rfl⟩ := runToEnd_of_play hplay
  refine ⟨((stage settings boss fewer pattern').runToEnd settings.maxFrames).2.shared.hosts, ?_, hlast.shared.hosts⟩
  rw [← hlast.shared.campaign]
  unfold play
  generalize (stage settings boss fewer pattern').runToEnd settings.maxFrames = run at hend' ⊢
  obtain ⟨answer, m⟩ := run
  cases hend'
  rfl

/-- If patterns of code are played to their ends, and every timer stands at zero when it is named for the first time,
then patterns of units are as well, and they complete the same phases. -/
theorem playAll_twins (h : Hosts.Abreast base record hosts fewer)
    (hpatterns : List.Forall₂ (fun x y => x.1 = y.1 ∧ Pattern.Twins base x.2 y.2) patterns patterns')
    (hnames : NamesAtZero (record ++ recordOfStages settings boss hosts patterns))
    (hplay : playAll settings boss hosts patterns = .ok completions) :
    playAll settings boss fewer patterns' = .ok completions := by
  -- The record has the deeds of all patterns before; a timer that one of them named is known to those that follow.
  induction hpatterns generalizing record hosts fewer completions with
  | nil => exact hplay
  | @cons x y rest rest' hpattern _ ih =>
    obtain ⟨path, pattern⟩ := x
    obtain ⟨path', pattern'⟩ := y
    obtain ⟨rfl, hpattern⟩ := hpattern
    obtain ⟨own, later, others, hplayed, hothers, rfl⟩ := playAll_cons_iff.1 hplay
    rw [recordOfStages, stages, List.flatMap_cons, ← List.append_assoc, hplayed] at hnames
    obtain ⟨later', hplayed', hnext⟩ := play_twins h hpattern (hnames.mono (List.prefix_append _ _)) hplayed
    exact playAll_cons_iff.2 ⟨own, later', others, hplayed', ih hnext hnames hothers, rfl⟩

end Barrage.Project
