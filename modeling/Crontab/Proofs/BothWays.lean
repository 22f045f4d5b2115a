import Crontab.Proofs.Sight
import Crontab.Zone.Table

/-! # Two searches toward each other

A search forward from one instant and a search backward from a later one look at the same span
of time.  If either sees something in the span, the other should.  **On clocks that keep to
whole minutes they disagree only over a stand-in** (`Schedule.next_lt_iff_lt_previous`): an
instant stands in for a minute that the clock is put forward past, and only a search with the
turn ahead of it comes to that minute.

A search overlooks what the other has found (`Schedule.Overlooks`) for one of two reasons.  The first
is about the stand-in that the other search has found: the search sets out when the turn is behind it
already.  The second is about a stand-in beyond the span: the search goes for it and past what lies
on the way.
-/

namespace Crontab

namespace Direction

/-- The direction in which a search goes back. -/
def opposite : Direction → Direction
  | forward => backward
  | backward => forward

variable {d : Direction} {a b : Instant} {origin turn : Int}

theorem opposite_past : d.opposite.Past a b ↔ d.Past b a := by
  cases d <;> rfl

/-- Of two searches toward each other from one second, each turn lies ahead of one. -/
theorem opposite_meets : d.opposite.Meets origin turn ↔ ¬ d.Meets origin turn := by
  cases d <;> simp only [opposite, Meets] <;> omega

/-- A turn that a search has behind it stays behind it. -/
theorem not_meets_of_past (h : d.Past a b) (hn : ¬ d.Meets a.second turn) :
    ¬ d.Meets b.second turn := by
  cases d <;> simp only [Past, Meets, Stamp.lt_def] at * <;> omega

end Direction

namespace Schedule

variable {s : Schedule} {z : Zone} {d : Direction} {origin other r x u v a b : Instant}
  {turn : Int}

/-- **A search from `origin` overlooks `x`** and comes to `r`, which lies no nearer than `other`,
though `x` lies past the origin.  Either the turn that `x` stands in from is behind the search, or
the search goes for a stand-in from a turn between `origin` and `other`. -/
inductive Overlooks (s : Schedule) (z : Zone) (d : Direction) (origin other r x : Instant)
    (turn : Int) : Prop where
  | turnBehind (m : CivilMinute) : d.Past origin x → ¬ d.Past r other → s.StandsIn z turn m x →
      ¬ d.Meets origin.second turn → Overlooks s z d origin other r x turn
  | standInBeyond (m : CivilMinute) : d.Past origin x → ¬ d.Past r other → s.StandsIn z turn m r →
      d.Meets origin.second turn → ¬ d.Meets other.second turn →
      Overlooks s z d origin other r x turn

/-- What is overlooked would have been nearer. -/
theorem Overlooks.past (h : s.Overlooks z d origin other r x turn) :
    d.Past origin x ∧ ¬ d.Past r other := by
  cases h with
  | turnBehind _ hox hr _ _ => exact ⟨hox, hr⟩
  | standInBeyond _ hox hr _ _ _ => exact ⟨hox, hr⟩

/-- **What one search sees and the other does not is overlooked for a stand-in.** -/
theorem Journey.overlooks (hz : z.Regular) (ho : origin.Inside 96) (ho' : other.Inside 96)
    (hr : r.Inside 96) (hx : x.Inside 96) (ha : z.Aligned d origin)
    (h : s.Journey z d origin r) (h' : s.Journey z d.opposite other x)
    (hox : d.Past origin x) (hr' : ¬ d.Past r other) :
    ∃ turn, s.Overlooks z d origin other r x turn := by
  obtain ⟨hxo, hseen⟩ := h'.occurs_or_standsIn hz ho' hx
  rw [Direction.opposite_past] at hxo
  have hxr : d.Past x r := by
    rcases d.past_trichotomy r other with hro | rfl | hor
    · exact absurd hro hr'
    · exact hxo
    · exact Direction.past_trans hxo hor
  rcases hseen with hoccurs | ⟨turn, m, hstands, hmeets⟩
  · obtain ⟨turn, m, hr, hmeets, hnot⟩ :=
      h.exists_standsIn_of_missed hz ho hr ha hoccurs hox hxr
    exact ⟨turn, .standInBeyond m hox hr' hr hmeets (Direction.not_meets_of_past hxo hnot)⟩
  · rw [Direction.opposite_meets] at hmeets
    by_cases hahead : d.Meets origin.second turn
    · have hnot : ¬ d.Meets r.second turn := by
        rcases d.past_trichotomy r other with hro | rfl | hor
        · exact absurd hro hr'
        · exact hmeets
        · exact Direction.not_meets_of_past hor hmeets
      obtain ⟨m', hr⟩ := h.exists_standsIn_of_standIn_missed hz hr ha hstands hahead hox hxr hnot
      exact ⟨turn, .standInBeyond m' hox hr' hr hahead hmeets⟩
    · exact ⟨turn, .turnBehind m hox hr' hstands hahead⟩

/-- **When two searches toward each other see the same**: a search forward from `u` comes to
something before `v` exactly if a search backward from `v` comes to something after `u`, unless
one of them overlooks what the other has found. -/
theorem next_lt_iff_lt_previous {expression : String} (hs : parse expression = .ok s)
    (hz : z.WholeMinutes) (hu : u.OnMinute ∧ u.Inside 96) (hv : v.OnMinute ∧ v.Inside 96)
    (ha : a.Inside 96) (hb : b.Inside 96) (hnext : s.next z u = .ok a)
    (hprev : s.previous z v = .ok b) :
    (a < v ↔ u < b) ↔
      ¬ ((∃ turn, s.Overlooks z .forward u v a b turn) ∨
        ∃ turn, s.Overlooks z .backward v u b a turn) := by
  have hvalid := valid_of_parse hs
  have hforward := journey_of_occurrence hvalid hz.toRegular hu.2 hnext
  have hbackward := journey_of_occurrence hvalid hz.toRegular hv.2 hprev
  constructor
  · rintro hiff (⟨turn, hover⟩ | ⟨turn, hover⟩)
    · exact hover.past.2 (hiff.mpr hover.past.1)
    · exact hover.past.2 (hiff.mp hover.past.1)
  · intro hnone
    constructor
    · intro hav
      apply Classical.byContradiction
      intro hub
      exact hnone (Or.inr (hbackward.overlooks hz.toRegular hv.2 hu.2 hb ha
        (fun _ => ⟨hz, hv.1⟩) hforward hav hub))
    · intro hub
      apply Classical.byContradiction
      intro hav
      exact hnone (Or.inl (hforward.overlooks hz.toRegular hu.2 hv.2 ha hb
        (z.aligned_forward u) hbackward hub hav))

/-- On 8 March 2026 the clocks are put forward from two to three in the morning, and half past
three stands in for half past two.  The search backward from four comes to it and the search
forward from three overlooks it, since the turn is behind. -/
theorem next_lt_iff_lt_previous_gap : ∃ s, parse "30 2 * * *" = .ok s ∧ ∃ u v a b : Instant,
    (u.second = 1772953200 ∧ v.second = 1772956800) ∧
      s.next Zone.eastern u = .ok a ∧ s.previous Zone.eastern v = .ok b ∧
      (∃ turn, s.Overlooks Zone.eastern .forward u v a b turn) := by
  obtain ⟨s, hs, hnext, hprev⟩ := exists_of_parse "30 2 * * *" (fun s =>
      s.next Zone.eastern ⟨1772953200, 0, by decide, by decide, by decide⟩ =
        .ok ⟨1773037800, 0, by decide, by decide, by decide⟩ ∧
      s.previous Zone.eastern ⟨1772956800, 0, by decide, by decide, by decide⟩ =
        .ok ⟨1772955000, 0, by decide, by decide, by decide⟩) (by decide +kernel)
  have hiff := next_lt_iff_lt_previous hs Zone.wholeMinutes_eastern
    ⟨by decide, by decide, by decide⟩ ⟨by decide, by decide, by decide⟩ ⟨by decide, by decide⟩
    ⟨by decide, by decide⟩ hnext hprev
  refine ⟨s, hs, _, _, _, _, ⟨rfl, rfl⟩, hnext, hprev, ?_⟩
  rcases Classical.not_not.mp (mt hiff.mpr (by decide)) with hover | ⟨turn, hover⟩
  · exact hover
  · have hpast : (⟨1773037800, 0, by decide, by decide, by decide⟩ : Instant) <
        ⟨1772956800, 0, by decide, by decide, by decide⟩ := hover.past.1
    exact absurd hpast (by decide)

/-- **A search backward finds what a search forward does not**: from three to four in the morning
of 8 March 2026 in New York. -/
theorem previous_finds_what_next_misses : ∃ s, parse "30 2 * * *" = .ok s ∧
    ∃ u v a b : Instant, ((u.second = 1772953200 ∧ u.OnMinute) ∧ v.second = 1772956800 ∧
        v.OnMinute) ∧ u < v ∧
      s.next Zone.newYork u = .ok a ∧ s.previous Zone.newYork v = .ok b ∧
      ¬ (a < v ↔ u < b) := by
  obtain ⟨s, hs, hnext, hprev⟩ := exists_of_parse "30 2 * * *" (fun s =>
      s.next Zone.newYork ⟨1772953200, 0, by decide, by decide, by decide⟩ =
        .ok ⟨1773037800, 0, by decide, by decide, by decide⟩ ∧
      s.previous Zone.newYork ⟨1772956800, 0, by decide, by decide, by decide⟩ =
        .ok ⟨1772955000, 0, by decide, by decide, by decide⟩) (by decide +kernel)
  exact ⟨s, hs, _, _, _, _, ⟨⟨rfl, by decide⟩, rfl, by decide⟩, by decide, hnext, hprev, by decide⟩

end Schedule

end Crontab
