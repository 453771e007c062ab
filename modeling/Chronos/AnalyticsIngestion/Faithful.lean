import Chronos.AnalyticsIngestion.Recording

namespace Chronos.AnalyticsIngestion

open Chronos.Domain
open Chronos.Library.MergeTree

section Steps

variable {U π ρ : Type} {c : Columns U} {decode : RawMessage → Option EventRecord} {batch : Nat}
variable {logs : π → Nat → RawMessage} {w w' : Warehouse U π ρ}

variable (c decode logs) in
/-- The invariant of the system. -/
structure Faithful (w : Warehouse U π ρ) : Prop where
  genuine : Genuine c decode logs w.parts
  inserted : ∀ {p n e}, n ∈ (w.consumers p).inserted → decode (logs p n) = some e →
    Recorded c w.horizon w.parts e
  caught : ∀ {r replay}, w.replays r = some replay →
    Caught c decode logs w.horizon w.parts replay

/-- Only the table has changed. -/
theorem faithful_table (hw : Faithful c decode logs w) {horizon : Int} {parts : Parts U}
    (hnext : Succeeds c decode logs w.horizon w.parts horizon parts) :
    Faithful c decode logs { w with horizon := horizon, parts := parts } where
  genuine := hnext.genuine
  inserted := fun hn hdecode => hnext.recorded hdecode (hw.inserted hn hdecode)
  caught := fun hreplay => caught_succeeds (hw.caught hreplay) hnext

/-- A table with fewer rows that still has the keys from the horizon on. -/
theorem succeeds_of_keys (hstamped : Stamped c decode logs)
    {horizon horizon' : Int} {parts parts' : Parts U} (hgenuine : Genuine c decode logs parts)
    (hhorizon : horizon ≤ horizon') (hrows : ∀ row ∈ parts'.flatten, row ∈ parts.flatten)
    (hkeys : ∀ row ∈ parts.flatten, horizon' ≤ row.eventTime →
      ∃ row' ∈ parts'.flatten, row'.key = row.key) :
    Succeeds c decode logs horizon parts horizon' parts' where
  genuine := fun row hrow => hgenuine row (hrows row hrow)
  recorded := by
    intro p n e hdecode hrecorded htime
    obtain ⟨row, hrow, hshows⟩ := hrecorded (hhorizon.trans htime)
    obtain ⟨row', hrow', hkey⟩ := hkeys row hrow (hshows.eventTime ▸ htime)
    obtain ⟨q, m, e', hdecode', hshows'⟩ := hgenuine row' (hrows row' hrow')
    have hid : row'.eventID = row.eventID := congrArg (fun k => k.2.2) hkey
    exact ⟨row', hrow', shows_of_key hstamped hdecode hdecode' hshows hshows' hid.symm⟩

theorem expires_faithful (hstamped : Stamped c decode logs) (hw : Faithful c decode logs w)
    (hstep : Expires w w') : Faithful c decode logs w' := by
  obtain ⟨horizon, kept, hhorizon⟩ := hstep
  refine faithful_table hw (succeeds_of_keys hstamped hw.genuine hhorizon ?_ ?_)
  · intro row hrow
    obtain ⟨_, hpart, hrow⟩ := List.mem_flatten.mp hrow
    obtain ⟨part, hmem, rfl⟩ := List.mem_map.mp hpart
    exact List.mem_flatten.mpr ⟨part, hmem, List.mem_of_mem_filter hrow⟩
  · intro row hrow htime
    obtain ⟨part, hpart, hrow⟩ := List.mem_flatten.mp hrow
    refine ⟨row, List.mem_flatten.mpr ⟨_, List.mem_map_of_mem hpart, ?_⟩, rfl⟩
    exact List.mem_filter.mpr ⟨hrow, decide_eq_true (Or.inl htime)⟩

variable (c decode logs) in
/-- What a step of a replay can do. -/
structure Replayed (w w' : Warehouse U π ρ) : Prop where
  horizon : w'.horizon = w.horizon
  consumers : w'.consumers = w.consumers
  keeps : ∀ row ∈ w.parts.flatten, row ∈ w'.parts.flatten
  rows : ∀ row ∈ w'.parts.flatten, row ∈ w.parts.flatten ∨
    ∃ r replay, w'.replays r = some replay ∧ ∃ n < replay.position, ∃ e,
      decode (logs replay.source n) = some e ∧ Shows c e row
  caught : ∀ {r replay}, w'.replays r = some replay →
    w.replays r = some replay ∨ Caught c decode logs w.horizon w'.parts replay

theorem replayed_faithful (hw : Faithful c decode logs w) (hstep : Replayed c decode logs w w') :
    Faithful c decode logs w' := by
  have hnext : Succeeds c decode logs w.horizon w.parts w'.horizon w'.parts := by
    refine ⟨?_, ?_⟩
    · intro row hrow
      rcases hstep.rows row hrow with hold | ⟨_, replay, _, n, _, e, hdecode, hshows⟩
      · exact hw.genuine row hold
      · exact ⟨replay.source, n, e, hdecode, hshows⟩
    · intro _ _ e _ hrecorded htime
      rw [hstep.horizon] at htime
      obtain ⟨row, hrow, hshows⟩ := hrecorded htime
      exact ⟨row, hstep.keeps row hrow, hshows⟩
  refine ⟨hnext.genuine, ?_, ?_⟩
  · intro p n e hn hdecode
    rw [hstep.consumers] at hn
    exact hnext.recorded hdecode (hw.inserted hn hdecode)
  · intro r replay hreplay
    rcases hstep.caught hreplay with hold | hcaught
    · exact caught_succeeds (hw.caught hold) hnext
    · rw [hstep.horizon]
      exact hcaught

/-- No replay has read past the given offsets. -/
def Within (bound : π → Nat) (w : Warehouse U π ρ) : Prop :=
  ∀ r replay, w.replays r = some replay → replay.position ≤ bound replay.source

/-- The invariant of replays over what was there before. -/
structure SameKeys (parts parts' : Parts U) : Prop where
  left : ∀ row ∈ parts.flatten, ∃ row' ∈ parts'.flatten, row'.key = row.key
  right : ∀ row' ∈ parts'.flatten, ∃ row ∈ parts.flatten, row.key = row'.key

theorem sameKeys_trans {parts parts' parts'' : Parts U} (h : SameKeys parts parts')
    (h' : SameKeys parts' parts'') : SameKeys parts parts'' where
  left := by
    intro row hrow
    obtain ⟨row', hrow', hkey⟩ := h.left row hrow
    obtain ⟨row'', hrow'', hkey'⟩ := h'.left row' hrow'
    exact ⟨row'', hrow'', hkey'.trans hkey⟩
  right := by
    intro row'' hrow''
    obtain ⟨row', hrow', hkey⟩ := h'.right row'' hrow''
    obtain ⟨row, hrow, hkey'⟩ := h.right row' hrow'
    exact ⟨row, hrow, hkey'.trans hkey⟩

/-- A replay of events that the table has adds no key. -/
theorem replayed_sameKeys {bound : π → Nat} {parts : Parts U}
    (hshown : ∀ {p n e}, n < bound p → decode (logs p n) = some e →
      ∃ row ∈ parts.flatten, Shows c e row)
    (hsame : SameKeys parts w.parts) (hstep : Replayed c decode logs w w')
    (hwithin : Within bound w') : SameKeys parts w'.parts where
  left := by
    intro row hrow
    obtain ⟨row', hrow', hkey⟩ := hsame.left row hrow
    exact ⟨row', hstep.keeps row' hrow', hkey⟩
  right := by
    intro row' hrow'
    rcases hstep.rows row' hrow' with hold | ⟨r, replay, hreplay, n, hn, e, hdecode, hshows⟩
    · exact hsame.right row' hold
    · obtain ⟨row, hrow, hshows'⟩ := hshown (hn.trans_le (hwithin r replay hreplay)) hdecode
      exact ⟨row, hrow, key_eq_of_shows hshows' hshows⟩

theorem consumes_faithful [DecidableEq π] (hstamped : Stamped c decode logs)
    (hw : Faithful c decode logs w) (hstep : Consumes c decode batch logs w w') :
    Faithful c decode logs w' := by
  obtain ⟨p, turn⟩ := hstep
  have hnext : Succeeds c decode logs w.horizon w.parts w.horizon
      (ingest c decode batch (logs p) (w.consumers p) turn w.parts) := by
    rw [ingest]
    split
    · exact ⟨hw.genuine, fun _ hrecorded => hrecorded⟩
    · exact insertEvents_succeeds hstamped hw.genuine w.horizon _ p _
  refine ⟨hnext.genuine, ?_, fun hreplay => caught_succeeds (hw.caught hreplay) hnext⟩
  intro q n e hn hdecode
  by_cases hq : q = p
  · subst hq
    dsimp only at hn ⊢
    rw [Function.update_self] at hn
    rcases inserted_consumeTopic hn with hold | ⟨draw, offsets, hflush, hok, hoffset⟩
    · exact hnext.recorded hdecode (hw.inserted hold hdecode)
    · rw [ingest, hflush]
      exact recorded_of_insert hstamped w.horizon (insertEvents_result draw w.parts hok)
        hoffset hdecode
  · dsimp only at hn
    rw [Function.update_of_ne hq] at hn
    exact hnext.recorded hdecode (hw.inserted hn hdecode)

section Replaying

variable [DecidableEq ρ]

theorem replayed_update (r : ρ) {next : Replay π × Parts U}
    (hnext : Advances c decode logs w.horizon w.parts next) :
    Replayed c decode logs w
      { w with parts := next.2, replays := Function.update w.replays r (some next.1) } where
  horizon := rfl
  consumers := rfl
  keeps := hnext.keeps
  rows := fun row hrow => (hnext.rows row hrow).imp_right fun hnew =>
    ⟨r, next.1, Function.update_self r _ _, hnew⟩
  caught := by
    intro r' replay hreplay
    by_cases hr : r' = r
    · subst hr
      obtain rfl := Option.some.inj ((Function.update_self r' _ _).symm.trans hreplay)
      exact Or.inr hnext.caught
    · exact Or.inl ((Function.update_of_ne hr _ _).symm.trans hreplay)

theorem replays_replayed (hstamped : Stamped c decode logs) (hw : Faithful c decode logs w)
    (hstep : Replays c decode logs w w') : Replayed c decode logs w w' := by
  cases hstep with
  | start r source max =>
      have hfresh : Caught c decode logs w.horizon w.parts { source := source, max := max } :=
        ⟨fun hn => absurd hn (Nat.not_lt_zero _), fun _ hn => absurd hn List.not_mem_nil,
          fun _ => rfl⟩
      have hnext : Advances c decode logs w.horizon w.parts
          ({ source := source, max := max }, w.parts) :=
        ⟨fun _ hrow => hrow, fun _ hrow => Or.inl hrow, hfresh⟩
      exact replayed_update r hnext
  | read r draw hreplay hrunning _ =>
      exact replayed_update r
        (read_advances hstamped hw.genuine (hw.caught hreplay) hrunning draw)
  | leave r draw hreplay _ =>
      exact replayed_update r (leave_advances hstamped hw.genuine (hw.caught hreplay) draw)

end Replaying

variable [DecidableEq U]

theorem mem_keys_of_merge {left middle right : Parts U} {part part' : List (EventRow U)}
    {row : EventRow U} :
    (row ∈ (left ++ collapse EventRow.key EventRow.ingestedAt (part ++ part') ::
        (middle ++ right)).flatten →
      row ∈ (left ++ part :: (middle ++ part' :: right)).flatten) ∧
    (row ∈ (left ++ part :: (middle ++ part' :: right)).flatten →
      ∃ row' ∈ (left ++ collapse EventRow.key EventRow.ingestedAt (part ++ part') ::
        (middle ++ right)).flatten, row'.key = row.key) := by
  simp only [List.flatten_append, List.flatten_cons, List.mem_append]
  constructor
  · rintro (h | h | h | h)
    · exact Or.inl h
    · rcases List.mem_append.mp (mem_of_mem_collapse h) with h | h
      · exact Or.inr (Or.inl h)
      · exact Or.inr (Or.inr (Or.inr (Or.inl h)))
    · exact Or.inr (Or.inr (Or.inl h))
    · exact Or.inr (Or.inr (Or.inr (Or.inr h)))
  · have hmerged : row ∈ part ++ part' →
        ∃ row' ∈ collapse EventRow.key EventRow.ingestedAt (part ++ part'),
          row'.key = row.key := by
      intro h
      exact List.mem_map.mp ((mem_keys_collapse _ _).mpr (List.mem_map_of_mem h))
    rintro (h | h | h | h | h)
    · exact ⟨row, Or.inl h, rfl⟩
    · obtain ⟨row', hrow', hkey⟩ := hmerged (List.mem_append_left _ h)
      exact ⟨row', Or.inr (Or.inl hrow'), hkey⟩
    · exact ⟨row, Or.inr (Or.inr (Or.inl h)), rfl⟩
    · obtain ⟨row', hrow', hkey⟩ := hmerged (List.mem_append_right _ h)
      exact ⟨row', Or.inr (Or.inl hrow'), hkey⟩
    · exact ⟨row, Or.inr (Or.inr (Or.inr h)), rfl⟩

theorem merges_faithful (hstamped : Stamped c decode logs) (hw : Faithful c decode logs w)
    (hstep : Merges c w w') : Faithful c decode logs w' := by
  obtain ⟨month, hparts, -⟩ := hstep
  refine faithful_table hw (succeeds_of_keys hstamped hw.genuine le_rfl ?_ ?_)
  · intro row hrow
    rw [hparts]
    exact mem_keys_of_merge.1 hrow
  · intro row hrow _
    rw [hparts] at hrow
    exact mem_keys_of_merge.2 hrow

theorem merges_sameKeys (hstep : Merges c w w') : SameKeys w.parts w'.parts := by
  obtain ⟨month, hparts, -⟩ := hstep
  refine ⟨fun row hrow => ?_, fun row hrow => ⟨row, ?_, rfl⟩⟩
  · rw [hparts] at hrow
    exact mem_keys_of_merge.2 hrow
  · rw [hparts]
    exact mem_keys_of_merge.1 hrow

end Steps

end Chronos.AnalyticsIngestion
