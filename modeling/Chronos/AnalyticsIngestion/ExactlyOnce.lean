import Chronos.AnalyticsIngestion.Faithful
import Mathlib.Data.List.Dedup
import Mathlib.Logic.Relation

namespace Chronos.AnalyticsIngestion

open Chronos.Domain
open Chronos.AnalyticsConsumer
open Chronos.Library.MergeTree
open Relation

def textColumns : Columns String where
  uuidParse := fun text => if text = "" then none else some text
  millis := fun t => t / 1000000
  month := fun _ => 197001

theorem stamped_nonempty {π : Type} (logs : π → Nat → RawMessage) :
    Stamped textColumns decodeNonempty logs := by
  have hevent : ∀ {raw e}, decodeNonempty raw = some e →
      e = { eventID := "event-1", eventType := "JOB_CREATED", eventTime := 0 } := by
    intro raw e h
    cases raw with
    | nil => cases h
    | cons _ _ => exact (Option.some.inj h).symm
  refine ⟨?_, ?_, ?_⟩
  · intro p n e h
    rw [hevent h]
    rfl
  · intro p n e h
    rw [hevent h]
    decide
  · intro p n e q m e' h h' _
    rw [hevent h, hevent h']

def lostInsert : Insert String where
  now := 5000000
  fresh := fun _ => ""
  delivery := .lost (.external "timeout") fun _ => true

def storedInsert : Insert String where
  now := 7000000
  fresh := fun _ => ""
  delivery := .stored

section Runs

variable {U π ρ : Type} {c : Columns U} {decode : RawMessage → Option EventRecord} {batch : Nat}
variable {logs : π → Nat → RawMessage} {w w' : Warehouse U π ρ}
variable [DecidableEq U]

/-- What is recorded is seen by a query. -/
theorem shown_of_recorded (hstamped : Stamped c decode logs) (hw : Faithful c decode logs w)
    {p : π} {n : Nat} {e : EventRecord} (hdecode : decode (logs p n) = some e)
    (hrecorded : Recorded c w.horizon w.parts e) (htime : w.horizon ≤ c.millis e.eventTime) :
    ∃ row ∈ final w.parts, Shows c e row := by
  obtain ⟨row, hrow, hshows⟩ := hrecorded htime
  have hkey : row.key ∈ (final w.parts).map EventRow.key :=
    (mem_keys_collapse _ _).mpr (List.mem_map_of_mem hrow)
  obtain ⟨row', hrow', hkey⟩ := List.mem_map.mp hkey
  obtain ⟨q, m, e', hdecode', hshows'⟩ := hw.genuine row' (mem_of_mem_collapse hrow')
  have hid : row'.eventID = row.eventID := congrArg (fun k => k.2.2) hkey
  exact ⟨row', hrow', shows_of_key hstamped hdecode hdecode' hshows hshows' hid.symm⟩

/-- Rows with one id show one event, so the query sees only one of them. -/
theorem nodup_ids (hstamped : Stamped c decode logs) (hw : Faithful c decode logs w) :
    ((final w.parts).map EventRow.eventID).Nodup := by
  have hkeys : ((final w.parts).map EventRow.key).Nodup := nodup_collapse _
  rw [List.Nodup, List.pairwise_map] at hkeys ⊢
  refine hkeys.imp_of_mem ?_
  intro row row' hrow hrow' hne hid
  obtain ⟨p, n, e, hdecode, hshows⟩ := hw.genuine row (mem_of_mem_collapse hrow)
  obtain ⟨q, m, e', hdecode', hshows'⟩ := hw.genuine row' (mem_of_mem_collapse hrow')
  exact hne (key_eq_of_shows hshows (shows_of_key hstamped hdecode hdecode' hshows hshows' hid))

theorem content_mem (hstamped : Stamped c decode logs) (hw : Faithful c decode logs w)
    (hw' : Faithful c decode logs w')
    (hkeys : ∀ row ∈ w.parts.flatten, ∃ row' ∈ w'.parts.flatten, row'.key = row.key)
    {content : EventRow U} (h : content ∈ (final w.parts).map EventRow.content) :
    content ∈ (final w'.parts).map EventRow.content := by
  obtain ⟨row, hrow, rfl⟩ := List.mem_map.mp h
  have hstored := mem_of_mem_collapse hrow
  obtain ⟨stored, hmem, hkey⟩ := hkeys row hstored
  have hfinal : row.key ∈ (final w'.parts).map EventRow.key :=
    (mem_keys_collapse _ _).mpr (List.mem_map.mpr ⟨stored, hmem, hkey⟩)
  obtain ⟨row', hrow', hkey'⟩ := List.mem_map.mp hfinal
  obtain ⟨p, n, e, hdecode, hshows⟩ := hw.genuine row hstored
  obtain ⟨q, m, e', hdecode', hshows'⟩ := hw'.genuine row' (mem_of_mem_collapse hrow')
  have hid : row'.eventID = row.eventID := congrArg (fun k => k.2.2) hkey'
  refine List.mem_map.mpr ⟨row', hrow', ?_⟩
  exact content_eq_of_shows (shows_of_key hstamped hdecode hdecode' hshows hshows' hid.symm) hshows

theorem nodup_contents (hstamped : Stamped c decode logs) (hw : Faithful c decode logs w) :
    ((final w.parts).map EventRow.content).Nodup := by
  refine List.Nodup.of_map EventRow.eventID ?_
  rw [List.map_map]
  exact nodup_ids hstamped hw

theorem countByType_eq_countP (parts : Parts U) (eventType : String) :
    countByType parts eventType =
      ((final parts).map EventRow.content).countP fun row => row.eventType = eventType := by
  rw [List.countP_map, countByType, ← List.countP_eq_length_filter]
  rfl

variable [DecidableEq ρ]

variable (c decode logs) in
/-- Replays up to the given offsets, with merges in between. -/
def ReplaysWithin (bound : π → Nat) (w w' : Warehouse U π ρ) : Prop :=
  (Replays c decode logs w w' ∨ Merges c w w') ∧ Within bound w'

theorem replaysWithin_run (hstamped : Stamped c decode logs) {bound : π → Nat}
    (hw : Faithful c decode logs w)
    (hshown : ∀ {p n e}, n < bound p → decode (logs p n) = some e →
      ∃ row ∈ w.parts.flatten, Shows c e row)
    (hrun : ReflTransGen (ReplaysWithin c decode logs bound) w w') :
    Faithful c decode logs w' ∧ SameKeys w.parts w'.parts := by
  induction hrun with
  | refl => exact ⟨hw, fun row hrow => ⟨row, hrow, rfl⟩, fun row hrow => ⟨row, hrow, rfl⟩⟩
  | tail _ hstep ih =>
      obtain ⟨hfaithful, hsame⟩ := ih
      obtain ⟨hreplays | hmerges, hwithin⟩ := hstep
      · have hreplayed := replays_replayed hstamped hfaithful hreplays
        exact ⟨replayed_faithful hfaithful hreplayed,
          replayed_sameKeys hshown hsame hreplayed hwithin⟩
      · exact ⟨merges_faithful hstamped hfaithful hmerges,
          sameKeys_trans hsame (merges_sameKeys hmerges)⟩

variable [DecidableEq π]

theorem step_faithful (hstamped : Stamped c decode logs) (hw : Faithful c decode logs w)
    (hstep : Step c decode batch logs w w') : Faithful c decode logs w' := by
  cases hstep with
  | consumes h => exact consumes_faithful hstamped hw h
  | replays h => exact replayed_faithful hw (replays_replayed hstamped hw h)
  | merges h => exact merges_faithful hstamped hw h
  | expires h => exact expires_faithful hstamped hw h

theorem run_faithful (hstamped : Stamped c decode logs) {horizon : Int}
    (hrun : ReflTransGen (Step c decode batch logs) { horizon := horizon } w) :
    Faithful c decode logs w := by
  induction hrun with
  | refl =>
      exact ⟨fun _ hrow => absurd hrow List.not_mem_nil, fun hn => absurd hn List.not_mem_nil,
        fun hreplay => absurd hreplay (Option.some_ne_none _).symm⟩
  | tail _ hstep ih => exact step_faithful hstamped ih hstep

variable (c decode logs) in
/-- What queries with FINAL see of the topics. -/
structure ExactlyOnce (w : Warehouse U π ρ) : Prop where
  once : ((final w.parts).map EventRow.eventID).Nodup
  genuine : ∀ row ∈ final w.parts, ∃ p n e, decode (logs p n) = some e ∧ Shows c e row
  consumed : ∀ {p}, AtLeastOnce decode (logs p) (w.consumers p) →
    ∀ {n e}, n < (w.consumers p).committed → decode (logs p n) = some e → e.eventID ≠ "" →
      w.horizon ≤ c.millis e.eventTime → ∃ row ∈ final w.parts, Shows c e row
  replayed : ∀ {r replay}, w.replays r = some replay → replay.status = .ended →
    ∀ {n e}, n < replay.position → decode (logs replay.source n) = some e →
      w.horizon ≤ c.millis e.eventTime → ∃ row ∈ final w.parts, Shows c e row

/-- Whatever fails, restarts, is delivered twice, replayed or merged: a query sees every event that
the consumers have passed, or a replay has read, exactly once, with the columns of the event. -/
theorem ingestion_exactlyOnce (hstamped : Stamped c decode logs) {horizon : Int}
    (hrun : ReflTransGen (Step c decode batch logs) { horizon := horizon } w) :
    ExactlyOnce c decode logs w := by
  have hw := run_faithful hstamped hrun
  refine ⟨nodup_ids hstamped hw, fun row hrow => hw.genuine row (mem_of_mem_collapse hrow),
    ?_, ?_⟩
  · intro p honce n e hn hdecode hid htime
    have hvalid : validEvent decode (logs p) n = true := by
      rw [validEvent, hdecode]
      exact bne_iff_ne.mpr hid
    exact shown_of_recorded hstamped hw hdecode (hw.inserted (honce n hn hvalid) hdecode) htime
  · intro r replay hreplay hended n e hn hdecode htime
    have hcaught := hw.caught hreplay
    rcases hcaught.read hn hdecode with hbatch | hrecorded
    · rw [hcaught.ended hended] at hbatch
      exact absurd hbatch List.not_mem_nil
    · exact shown_of_recorded hstamped hw hdecode hrecorded htime

/-- The first insert is stored although it fails, so the flush is repeated. -/
theorem lost_insert_seen_once :
    ∃ w : Warehouse String Unit Unit, w.parts.flatten.length = 2 ∧ countEvents w.parts = 1 ∧
      (w.consumers ()).committed = 1 ∧
      ExactlyOnce textColumns decodeNonempty (fun _ => eventThenPoison) w := by
  have hrun : ReflTransGen (Step textColumns decodeNonempty 1 fun _ => eventThenPoison)
      ({ horizon := 0 } : Warehouse String Unit Unit) _ :=
    .tail (.tail .refl (.consumes (.turn () (.fetch (.ok ()) lostInsert (.ok ())))))
      (.consumes (.turn () (.tick storedInsert (.ok ()))))
  refine ⟨_, ?_, ?_, ?_, ingestion_exactlyOnce (stamped_nonempty _) hrun⟩
  · decide +kernel
  · decide +kernel
  · decide +kernel

/-- Replays of events that queries already see, with all that can fail in them, leave every row
that a query sees as it is, up to the time of its insertion, and every count. -/
theorem replay_leaves_view (hstamped : Stamped c decode logs) {horizon : Int}
    (hrun : ReflTransGen (Step c decode batch logs) { horizon := horizon } w) {bound : π → Nat}
    (hshown : ∀ {p n e}, n < bound p → decode (logs p n) = some e →
      ∃ row ∈ final w.parts, Shows c e row)
    (hreplays : ReflTransGen (ReplaysWithin c decode logs bound) w w') :
    ((final w'.parts).map EventRow.content).Perm ((final w.parts).map EventRow.content) ∧
      countEvents w'.parts = countEvents w.parts ∧
      ∀ eventType, countByType w'.parts eventType = countByType w.parts eventType := by
  have hw := run_faithful hstamped hrun
  have hstored : ∀ {p n e}, n < bound p → decode (logs p n) = some e →
      ∃ row ∈ w.parts.flatten, Shows c e row := by
    intro p n e hn hdecode
    obtain ⟨row, hrow, hshows⟩ := hshown hn hdecode
    exact ⟨row, mem_of_mem_collapse hrow, hshows⟩
  obtain ⟨hw', hsame⟩ := replaysWithin_run hstamped hw hstored hreplays
  have hperm : ((final w'.parts).map EventRow.content).Perm
      ((final w.parts).map EventRow.content) := by
    refine (List.perm_ext_iff_of_nodup (nodup_contents hstamped hw')
      (nodup_contents hstamped hw)).mpr fun content => ?_
    exact ⟨content_mem hstamped hw' hw hsame.right, content_mem hstamped hw hw' hsame.left⟩
  refine ⟨hperm, ?_, fun eventType => ?_⟩
  · simpa [countEvents] using hperm.length_eq
  · rw [countByType_eq_countP, countByType_eq_countP]
    exact hperm.countP_eq _

/-- A replay inserts a third row of the event. -/
theorem replayed_event_counted_once :
    ∃ w w' : Warehouse String Unit Unit,
      w.parts.flatten.length = 2 ∧ w'.parts.flatten.length = 3 ∧
      ((final w'.parts).map EventRow.content).Perm ((final w.parts).map EventRow.content) ∧
      countEvents w'.parts = countEvents w.parts ∧
      ∀ eventType, countByType w'.parts eventType = countByType w.parts eventType := by
  have hrun : ReflTransGen (Step textColumns decodeNonempty 1 fun _ => eventThenPoison)
      ({ horizon := 0 } : Warehouse String Unit Unit) _ :=
    .tail (.tail .refl (.consumes (.turn () (.fetch (.ok ()) lostInsert (.ok ())))))
      (.consumes (.turn () (.tick storedInsert (.ok ()))))
  have hwithin : ∀ w : Warehouse String Unit Unit,
      ((w.replays ()).map Replay.position).getD 0 ≤ 2 → Within (fun _ => 2) w := by
    intro w hposition r replay hreplay
    rw [hreplay] at hposition
    exact hposition
  refine ⟨_, _, ?_, ?_, replay_leaves_view (stamped_nonempty _) hrun ?_
    (.tail (.tail (.tail .refl ⟨.inl (.start () () 0), hwithin _ ?_⟩)
      ⟨.inl (.read () storedInsert rfl rfl ?_), hwithin _ ?_⟩)
      ⟨.inl (.leave () storedInsert rfl rfl), hwithin _ ?_⟩)⟩
  · decide +kernel
  · decide +kernel
  · intro p n e _ hdecode
    cases n with
    | succ n => cases hdecode
    | zero =>
        obtain rfl := Option.some.inj hdecode
        refine ⟨eventRow textColumns storedInsert.now "" _, ?_, shows_eventRow rfl ?_ _ _⟩
        · decide +kernel
        · decide
  · decide +kernel
  · exact fun hfull => absurd hfull.1 (lt_irrefl 0)
  · decide +kernel
  · decide +kernel

end Runs

end Chronos.AnalyticsIngestion
