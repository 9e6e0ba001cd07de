import InvitationService.Lib.LatestWins
import InvitationService.Lifecycle.Runs
import InvitationService.Model.GuestMagicLink

namespace InvitationService

namespace GuestMagicLink

variable {cfg : Config} {candidates candidates' : List ContactMatch}
  {name : Option RequestedName} {c d : ContactMatch}

/-- The candidates that bear the provided name, or all of them where none is provided. -/
def namesakes (cfg : Config) (candidates : List ContactMatch) (name : Option RequestedName) :
    List ContactMatch :=
  candidates.filter fun candidate =>
    (providedName cfg name).all fun provided => candidate.fullName cfg = provided

def rootNamesakes (cfg : Config) (candidates : List ContactMatch) (name : Option RequestedName) :
    List ContactMatch :=
  (namesakes cfg candidates name).filter (·.isRoot)

/-- When the ladder picks `c`: the rungs in their order. -/
inductive Picks (cfg : Config) (candidates : List ContactMatch) (name : Option RequestedName)
    (c : ContactMatch) : Prop
  | single : namesakes cfg candidates name = [c] → Picks cfg candidates name c
  | root : rootNamesakes cfg candidates name = [c] → Picks cfg candidates name c
  | newest : (providedName cfg name).isSome → 1 < (rootNamesakes cfg candidates name).length →
      LatestWins.IsStrictlyLatest ContactMatch.time (rootNamesakes cfg candidates name) c →
      Picks cfg candidates name c

theorem namesakes_of_provided {provided : String} (h : providedName cfg name = some provided) :
    namesakes cfg candidates name =
      candidates.filter fun candidate => candidate.fullName cfg = provided := by
  simp [namesakes, h]

theorem namesakes_of_none (h : providedName cfg name = none) :
    namesakes cfg candidates name = candidates := by
  simp [namesakes, h]

theorem newestFirst_perm (roots : List ContactMatch) : (newestFirst roots).Perm roots :=
  List.mergeSort_perm ..

theorem newestFirst_pairwise (roots : List ContactMatch) :
    (newestFirst roots).Pairwise fun a b => b.time ≤ a.time := by
  have htrans : ∀ a b c : ContactMatch, decide (b.time - a.time ≤ 0) = true →
      decide (c.time - b.time ≤ 0) = true → decide (c.time - a.time ≤ 0) = true := by
    intro a b c hab hbc
    simp only [decide_eq_true_eq] at hab hbc ⊢
    omega
  have htotal : ∀ a b : ContactMatch,
      (decide (b.time - a.time ≤ 0) || decide (a.time - b.time ≤ 0)) = true := by
    intro a b
    simp only [Bool.or_eq_true, decide_eq_true_eq]
    omega
  refine (List.pairwise_mergeSort htrans htotal roots).imp fun hab => ?_
  simp only [decide_eq_true_eq] at hab
  omega

theorem newestRoot_eq_some {roots : List ContactMatch} (h : 1 < roots.length) :
    newestRoot roots = some c ↔ LatestWins.IsStrictlyLatest ContactMatch.time roots c := by
  rw [← LatestWins.isStrictlyLatest_congr (newestFirst_perm roots)]
  have hlen := (newestFirst_perm roots).length_eq
  have hs := newestFirst_pairwise roots
  unfold newestRoot
  match hsorted : newestFirst roots with
  | [] => simp only [hsorted, List.length_nil] at hlen; omega
  | [a] => simp only [hsorted, List.length_singleton] at hlen; omega
  | newest :: second :: rest =>
    rw [hsorted] at hs
    rw [LatestWins.isStrictlyLatest_cons_cons hs]
    by_cases hne : newest.time = second.time <;> simp [hne]

theorem resolveEligibleMatch_eq :
    resolveEligibleMatch cfg candidates name =
      match namesakes cfg candidates name with
      | [] => none
      | [candidate] => some candidate
      | subset =>
        match subset.filter (·.isRoot) with
        | [root] => some root
        | roots =>
          if (providedName cfg name).isSome && 1 < roots.length then newestRoot roots
          else none := by
  unfold resolveEligibleMatch
  cases hname : providedName cfg name with
  | none => exact (namesakes_of_none hname).symm ▸ rfl
  | some provided => exact (namesakes_of_provided hname).symm ▸ rfl

theorem picks_of_nil (h : namesakes cfg candidates name = []) :
    ¬ Picks cfg candidates name c := by
  have hroots : rootNamesakes cfg candidates name = [] := by simp [rootNamesakes, h]
  rintro (hc | hc | ⟨-, hlen, -⟩)
  · simp [h] at hc
  · simp [hroots] at hc
  · simp [hroots] at hlen

theorem picks_of_single (h : namesakes cfg candidates name = [d]) :
    Picks cfg candidates name c ↔ d = c := by
  have hroots : (rootNamesakes cfg candidates name).Sublist [d] := by
    rw [← h]
    exact List.filter_sublist
  constructor
  · rintro (hc | hc | ⟨-, hlen, -⟩)
    · simpa [h] using hc
    · rw [hc] at hroots
      exact (List.mem_singleton.1 (hroots.subset (List.mem_singleton_self c))).symm
    · have := hroots.length_le
      simp only [List.length_singleton] at this
      omega
  · rintro rfl
    exact .single h

theorem picks_of_several {e : ContactMatch} {rest : List ContactMatch}
    (h : namesakes cfg candidates name = d :: e :: rest) :
    Picks cfg candidates name c ↔ rootNamesakes cfg candidates name = [c] ∨
      ((providedName cfg name).isSome ∧ 1 < (rootNamesakes cfg candidates name).length ∧
        newestRoot (rootNamesakes cfg candidates name) = some c) := by
  constructor
  · rintro (hc | hc | ⟨hname, hlen, hc⟩)
    · simp [h] at hc
    · exact .inl hc
    · exact .inr ⟨hname, hlen, (newestRoot_eq_some hlen).2 hc⟩
  · rintro (hc | ⟨hname, hlen, hc⟩)
    · exact .root hc
    · exact .newest hname hlen ((newestRoot_eq_some hlen).1 hc)

theorem resolveEligibleMatch_eq_some :
    resolveEligibleMatch cfg candidates name = some c ↔ Picks cfg candidates name c := by
  rw [resolveEligibleMatch_eq]
  match hS : namesakes cfg candidates name with
  | [] => simp [picks_of_nil hS]
  | [d] => simp [picks_of_single hS]
  | d :: e :: rest =>
    rw [picks_of_several hS]
    have hroots : rootNamesakes cfg candidates name = (d :: e :: rest).filter (·.isRoot) := by
      rw [rootNamesakes, hS]
    rw [hroots]
    dsimp only
    generalize (d :: e :: rest).filter (·.isRoot) = roots
    match roots with
    | [] => simp
    | [root] => simp
    | _ :: _ :: _ => simp

theorem Picks.perm (hc : Picks cfg candidates name c) (h : candidates.Perm candidates') :
    Picks cfg candidates' name c := by
  have hS : (namesakes cfg candidates name).Perm (namesakes cfg candidates' name) := h.filter _
  have hroots : (rootNamesakes cfg candidates name).Perm (rootNamesakes cfg candidates' name) :=
    hS.filter _
  rcases hc with hc | hc | ⟨hname, hlen, hc⟩
  · rw [hc] at hS
    exact .single (List.perm_singleton.1 hS.symm)
  · rw [hc] at hroots
    exact .root (List.perm_singleton.1 hroots.symm)
  · exact .newest hname (hroots.length_eq ▸ hlen) (hc.perm hroots)

theorem not_picks_of_tie {d₁ d₂ : ContactMatch} {rest : List ContactMatch}
    (h : (rootNamesakes cfg candidates name).Perm (d₁ :: d₂ :: rest)) (htie : d₁.time = d₂.time)
    (hmax : ∀ e ∈ rest, e.time ≤ d₁.time) : ¬ Picks cfg candidates name c := by
  have hlen := h.length_eq
  simp only [List.length_cons] at hlen
  have hle : (rootNamesakes cfg candidates name).length ≤ (namesakes cfg candidates name).length :=
    List.length_filter_le ..
  rintro (hc | hc | ⟨-, -, hc⟩)
  · rw [hc, List.length_singleton] at hle
    omega
  · rw [hc, List.length_singleton] at hlen
    omega
  · exact LatestWins.not_isStrictlyLatest_of_tie htie hmax (hc.perm h)

theorem Picks.mem (hc : Picks cfg candidates name c) : c ∈ candidates := by
  have hS : namesakes cfg candidates name ⊆ candidates := List.filter_subset_self ..
  have hroots : rootNamesakes cfg candidates name ⊆ namesakes cfg candidates name :=
    List.filter_subset_self ..
  rcases hc with hc | hc | ⟨-, -, others, hothers, -⟩
  · exact hS (hc ▸ List.mem_singleton_self c)
  · exact hS (hroots (hc ▸ List.mem_singleton_self c))
  · exact hS (hroots (hothers.mem_iff.2 (List.mem_cons_self ..)))

theorem resolveEligibleMatch_eligible {now : Nat} {found : List ContactMatch}
    (hc : resolveEligibleMatch cfg (eligible now found) name = some c) :
    (c.status = .approved ∨ c.status = .accepted) ∧ (∃ endsAt, c.eventEndsAt = some endsAt ∧
      (now : Int) < endsAt) ∧ ∃ guest, c.guestProfileId = some guest := by
  have hmem := (resolveEligibleMatch_eq_some.1 hc).mem
  simp only [eligible, List.mem_filter, Bool.and_eq_true, Bool.or_eq_true,
    decide_eq_true_eq] at hmem
  obtain ⟨-, ⟨hstatus, hends⟩, hguest⟩ := hmem
  refine ⟨hstatus, ?_, Option.isSome_iff_exists.1 hguest⟩
  simpa [Option.any_eq_true] using hends

/-- The ladder picks as it says, whatever the order of the candidates, and nobody where
the newest roots tie. -/
theorem resolveEligibleMatch_ladder (cfg : Config) (candidates : List ContactMatch)
    (name : Option RequestedName) :
    (∀ c, resolveEligibleMatch cfg candidates name = some c ↔ Picks cfg candidates name c) ∧
      (∀ candidates', candidates.Perm candidates' →
        resolveEligibleMatch cfg candidates' name = resolveEligibleMatch cfg candidates name) ∧
      ∀ d₁ d₂ rest, (rootNamesakes cfg candidates name).Perm (d₁ :: d₂ :: rest) →
        d₁.time = d₂.time → (∀ e ∈ rest, e.time ≤ d₁.time) →
        resolveEligibleMatch cfg candidates name = none := by
  refine ⟨fun c => resolveEligibleMatch_eq_some, fun candidates' h => ?_,
    fun d₁ d₂ rest h htie hmax => ?_⟩
  · refine Option.ext fun c => ?_
    rw [resolveEligibleMatch_eq_some, resolveEligibleMatch_eq_some]
    exact ⟨fun hc => hc.perm h.symm, fun hc => hc.perm h⟩
  · refine Option.eq_none_iff_forall_ne_some.2 fun c hc => ?_
    exact not_picks_of_tie h htie hmax (resolveEligibleMatch_eq_some.1 hc)

section Example

def sampleRoot (updatedAt : Int) : ContactMatch where
  guestProfileId := some 9
  status := .approved
  eventEndsAt := some 100
  firstName := some "Max "
  lastName := some "Mustermann"
  invitedByInvitationId := none
  updatedAt := some updatedAt

def sampleName : RequestedName := ⟨some "Max", some "Mustermann"⟩

theorem resolveEligibleMatch_ladder_newest :
    resolveEligibleMatch plainConfig [sampleRoot 2, sampleRoot 1] (some sampleName) =
        resolveEligibleMatch plainConfig [sampleRoot 1, sampleRoot 2] (some sampleName) ∧
      resolveEligibleMatch plainConfig [sampleRoot 1, sampleRoot 1] (some sampleName) = none :=
  ⟨(resolveEligibleMatch_ladder plainConfig [sampleRoot 1, sampleRoot 2] (some sampleName)).2.1
      [sampleRoot 2, sampleRoot 1] (by decide),
    (resolveEligibleMatch_ladder plainConfig [sampleRoot 1, sampleRoot 1] (some sampleName)).2.2
      (sampleRoot 1) (sampleRoot 1) [] (by decide) rfl (by simp)⟩

end Example

end GuestMagicLink
end InvitationService
