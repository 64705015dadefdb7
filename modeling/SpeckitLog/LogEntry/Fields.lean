import SpeckitLog.LogEntry
import SpeckitLog.Lib.Search

/-!
# What a record holds

A `LogEntry` keeps its tag and its message as views, with lengths; `formatLogEntry`
passes on only where they start, and reads up to the next NUL.

## Main definitions

* `StringView.contents` — the characters that a view is a view of.
* `StringView.IsCString` — the view ends where the C string at its start ends.
* `HoldsFields` — the record has the contents of both views in it.

## Main results

* `holdsFields_iff` — when a record holds its fields.
-/

namespace StringView

open Text

variable {β : Type*} (memory : β → Text) (v : StringView β)

/-- The characters of a view. -/
def contents : Text := ((memory v.buffer).drop v.offset).take v.length

/-- No character of the view is NUL, and a NUL follows it in its buffer. -/
structure IsCString : Prop where
  noNul : nul ∉ v.contents memory
  followed : (memory v.buffer)[v.offset + v.length]? = some nul

variable {memory v}

/-- **The C string is the view** when a NUL follows the view, and none is in it. -/
theorem data_of_isCString (h : v.IsCString memory) : v.data memory = some (v.contents memory) := by
  refine cString_eq_some.mpr
    ⟨h.noNul, ((memory v.buffer).drop v.offset).drop (v.length + 1), ?_⟩
  have hget : ((memory v.buffer).drop v.offset)[v.length]? = some nul := by
    rw [List.getElem?_drop]
    exact h.followed
  obtain ⟨hlt, hnul⟩ := List.getElem?_eq_some_iff.mp hget
  rw [contents, ← hnul, ← List.drop_eq_getElem_cons hlt, List.take_append_drop]

/-- A view without NUL is a start of the C string. -/
theorem contents_prefix_of_data {t : Text} (hdata : v.data memory = some t)
    (hnul : nul ∉ v.contents memory) : v.contents memory <+: t := by
  obtain ⟨-, rest, hrest⟩ := cString_eq_some.mp hdata
  have hstart : v.contents memory <+: t ++ nul :: rest := hrest ▸ List.take_prefix _ _
  exact (prefix_append_cons hnul).mp hstart

theorem isCString_of_data (hdata : v.data memory = some (v.contents memory)) :
    v.IsCString memory := by
  obtain ⟨hnul, rest, hrest⟩ := cString_eq_some.mp hdata
  refine ⟨hnul, ?_⟩
  have hlen : (v.contents memory).length = v.length := by
    have hlt := congrArg List.length hrest
    rw [List.length_append, List.length_cons] at hlt
    rw [contents, List.length_take] at hlt ⊢
    omega
  rw [← List.getElem?_drop, hrest, ← hlen, List.getElem?_append_right le_rfl, Nat.sub_self,
    List.getElem?_cons_zero]

end StringView

namespace SpeckitLog

open Text

variable {τ β : Type*}

/-- The record has exactly the contents of the views in it. -/
def HoldsFields (platform : Platform τ) (memory : β → Text) (entry : LogEntry τ β) : Prop :=
  formatLogEntry platform memory entry =
    some (recordOf platform entry (entry.tag.contents memory) (entry.message.contents memory))

/-- Two records of an entry differ in their texts only. -/
theorem recordOf_inj {platform : Platform τ} {entry : LogEntry τ β}
    {tag tag' message message' : Text}
    (h : recordOf platform entry tag message = recordOf platform entry tag' message') :
    tag ++ "]: ".toList ++ message = tag' ++ "]: ".toList ++ message' := by
  unfold recordOf at h
  have hline := List.append_cancel_right h
  simp only [List.append_assoc, List.cons_append] at hline
  simpa [List.append_assoc] using hline

/-- **When a record holds its fields**: both views are C strings. -/
theorem holdsFields_iff {platform : Platform τ} {memory : β → Text} {entry : LogEntry τ β} :
    HoldsFields platform memory entry ↔
      entry.tag.IsCString memory ∧ entry.message.IsCString memory := by
  unfold HoldsFields formatLogEntry
  constructor
  · intro h
    obtain ⟨tag, htag, h⟩ := Option.bind_eq_some_iff.mp h
    obtain ⟨message, hmessage, h⟩ := Option.bind_eq_some_iff.mp h
    have hsame := recordOf_inj (Option.some.inj h)
    -- no C string has a NUL in it, so neither view has
    have hnul : nul ∉ tag ++ "]: ".toList ++ message := by
      simp only [List.mem_append, not_or]
      exact ⟨⟨(cString_eq_some.mp htag).1, by decide⟩, (cString_eq_some.mp hmessage).1⟩
    rw [hsame] at hnul
    simp only [List.mem_append, not_or] at hnul
    have htag' := StringView.contents_prefix_of_data htag hnul.1.1
    have hmessage' := StringView.contents_prefix_of_data hmessage hnul.2
    -- a longer text would make a longer record
    have hlen := congrArg List.length hsame
    simp only [List.length_append] at hlen
    have := htag'.length_le
    have := hmessage'.length_le
    rw [← htag'.eq_of_length (by omega)] at htag
    rw [← hmessage'.eq_of_length (by omega)] at hmessage
    exact ⟨StringView.isCString_of_data htag, StringView.isCString_of_data hmessage⟩
  · rintro ⟨htag, hmessage⟩
    rw [StringView.data_of_isCString htag, StringView.data_of_isCString hmessage]
    rfl

/-- A platform at the first moment of 1970, with numbers for threads. -/
def Platform.atEpoch : Platform ℕ where
  localtime _ := ⟨70, 0, 1, 0, 0, 0⟩
  threadIdStr id := decimal id

/-- **A view of the start of a string**: the record has the whole string in it. -/
theorem not_holdsFields_start :
    ¬ ∀ (platform : Platform ℕ) (memory : Unit → Text) (entry : LogEntry ℕ Unit),
      HoldsFields platform memory entry := by
  intro h
  have hfields := h .atEpoch (fun _ => "message\x00".toList)
    { level := .info, timestampMs := 0, processId := 7, threadId := 1, tag := ⟨(), 0, 7⟩,
      message := ⟨(), 0, 4⟩ }
  exact absurd hfields (by unfold HoldsFields; decide +kernel)

end SpeckitLog
