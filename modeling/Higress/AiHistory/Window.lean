import Mathlib
import Higress.AiHistory.ChatHistory

/-!
The window of a stored history (`ai-history/main.go`). The number of turns comes from the query of a
path; it is doubled, and cut down where the history is shorter. Nothing is done about a number that is
negative, or that the doubling makes negative or carries past the largest integer.
-/

namespace Higress.AiHistory

open Lib

/-- What may be used of a history when a number of turns is asked for. -/
structure IsWindow (chat : List ChatHistory) (turns : Int64) (used : List ChatHistory) : Prop where
  suffix : used <:+ chat
  length_le : used.length ≤ 2 * turns.toInt.toNat

/-- The numbers that are doubled without harm: those that are not negative and small enough, the
smallest integer, whose double is zero, and, for an empty history, all whose double is not negative. -/
def Harmless (turns : Int64) (chat : List ChatHistory) : Prop :=
  (0 ≤ turns.toInt ∧ turns.toInt < 2 ^ 62) ∨ turns.toInt = -2 ^ 63 ∨
    (turns.toInt < -2 ^ 62 ∧ chat = [])

/-- The double of an integer, where it wraps around. -/
theorem toInt_double (n : Int64) : (n * 2).toInt =
    if n.toInt < -2 ^ 62 then 2 * n.toInt + 2 ^ 64
    else if n.toInt < 2 ^ 62 then 2 * n.toInt
    else 2 * n.toInt - 2 ^ 64 := by
  have hle := n.le_toInt
  have hlt := n.toInt_lt
  have htwo : (2 : Int64).toInt = 2 := by decide
  rw [Int64.toInt_mul, htwo, Int.bmod_def]
  split_ifs <;> omega

theorem lastMessages_eq_some {chat used : List ChatHistory} {cnt : Int64} :
    lastMessages chat cnt = some used ↔
      0 ≤ cnt.toInt ∧ used = chat.drop (chat.length - (min cnt.toInt chat.length).toNat) := by
  rw [lastMessages, sliceFrom]
  split
  · rename_i hrange
    have hcnt : 0 ≤ cnt.toInt := by omega
    have hindex : ((chat.length : ℤ) - min cnt.toInt chat.length).toNat =
        chat.length - (min cnt.toInt chat.length).toNat := by omega
    rw [hindex, Option.some.injEq, eq_comm]
    exact ⟨fun h => ⟨hcnt, h⟩, fun h => h.2⟩
  · rename_i hrange
    constructor
    · intro h
      cases h
    · rintro ⟨hcnt, -⟩
      omega

/-- The window is as it should be exactly for the harmless numbers. -/
theorem lastMessages_isWindow_iff (chat : List ChatHistory) (turns : Int64) :
    (∃ used, lastMessages chat (turns * 2) = some used ∧ IsWindow chat turns used) ↔
      Harmless turns chat := by
  have hle := turns.le_toInt
  have hlt := turns.toInt_lt
  have hdouble := toInt_double turns
  have hempty : chat = [] ↔ chat.length = 0 := List.length_eq_zero_iff.symm
  rw [Harmless, hempty]
  constructor
  · rintro ⟨used, hused, -, hlength⟩
    obtain ⟨hcnt, rfl⟩ := lastMessages_eq_some.mp hused
    rw [List.length_drop] at hlength
    rw [hdouble] at hcnt hlength
    split_ifs at hcnt hlength <;> omega
  · intro h
    have hcnt : 0 ≤ (turns * 2).toInt := by
      rw [hdouble]
      split_ifs <;> omega
    refine ⟨_, lastMessages_eq_some.mpr ⟨hcnt, rfl⟩, List.drop_suffix _ _, ?_⟩
    rw [List.length_drop, hdouble]
    split_ifs <;> omega

/-- A query of the history and the filling of a request use a window of the stored history, and do
not slice out of range, if and only if the number of turns is harmless; nothing is sliced for messages
with several of the user. -/
theorem history_window_iff (codec : Codec) (config : PluginConfig) (path : GoString)
    (chat currMessage : List ChatHistory) :
    ((∃ used, queryHistory codec path chat = [.respond used (codec.marshal used)] ∧
        IsWindow chat (queriedTurns codec path chat) used) ↔
      Harmless (queriedTurns codec path chat) chat) ∧
    ((∃ used, fillHistory chat currMessage (filledTurns codec config path * 2) =
          some (used ++ currMessage) ∧ IsWindow chat (filledTurns codec config path) used) ↔
      1 < currMessage.countP (·.role == bytes "user") ∨
        Harmless (filledTurns codec config path) chat) := by
  constructor
  · rw [← lastMessages_isWindow_iff, queryHistory]
    cases lastMessages chat (queriedTurns codec path chat * 2) with
    | none => simp
    | some used => simp
  · rw [← lastMessages_isWindow_iff, fillHistory]
    split
    · rename_i husers
      have hnone : IsWindow chat (filledTurns codec config path) [] := ⟨List.nil_suffix, by simp⟩
      exact ⟨fun _ => .inl husers, fun _ => ⟨[], rfl, hnone⟩⟩
    · rename_i husers
      cases lastMessages chat (filledTurns codec config path * 2) with
      | none => simp [husers]
      | some used => simp [husers]

/-- A path with a number of turns, for a query. -/
def cntCodec (cnt : GoString) : Codec where
  stream _ := false
  question _ := []
  messages _ := []
  answer _ := []
  delta _ := none
  toolCalls _ := false
  marshal _ := []
  unmarshal _ := none
  replaceMessages _ _ := none
  query _ _ := some cnt

/-- A query for minus one turns stops the plugin. -/
theorem query_negative_panics :
    queryHistory (cntCodec (bytes "-1")) (bytes "/ai-history/query?cnt=-1")
        [⟨bytes "user", bytes "a"⟩, ⟨bytes "assistant", bytes "b"⟩] = [.panic] := by
  have hturns : ∀ chat, queriedTurns (cntCodec (bytes "-1")) (bytes "/ai-history/query?cnt=-1") chat =
      -1 := by
    intro chat
    rfl
  have hcnt : (-1 * 2 : Int64).toInt = -2 := by decide
  rw [queryHistory, hturns]
  simp [lastMessages, sliceFrom, hcnt]

end Higress.AiHistory
