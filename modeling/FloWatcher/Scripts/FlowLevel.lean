import FloWatcher.Basic

/-!
# `scripts/flow-level.lua`

The Lua script that counts flows with one dictionary per lower half. A key is absent until its
first packet, so no tag is special.
-/

namespace FloWatcher
namespace FlowLevel

/-- `ft`: one dictionary for each of the `FLOW_NUM` lower halves. `none` is `nil`. -/
abbrev Ft := Bucket → Tag → Option Nat

/-- `ft[i-1] = {}` for every `i`. -/
def Ft.empty : Ft := fun _ _ => none

/-- The body of the packet loop of `dumpSlave`. -/
def countPacket (ft : Ft) (rss : Hash) : Ft :=
  let hashLow := indexL rss
  let hashHigh := indexH rss
  match ft hashLow hashHigh with
  | some c => Function.update ft hashLow (Function.update (ft hashLow) hashHigh (some (c + 1)))
  | none => Function.update ft hashLow (Function.update (ft hashLow) hashHigh (some 1))

/-- `ft` after `dumpSlave` has received `hs`. -/
def dumpSlave (hs : List Hash) : Ft := hs.foldl countPacket Ft.empty

theorem countPacket_eq (ft : Ft) (rss : Hash) :
    countPacket ft rss = Function.update ft (indexL rss) (Function.update (ft (indexL rss))
      (indexH rss) (some ((ft (indexL rss) (indexH rss)).getD 0 + 1))) := by
  unfold countPacket
  cases h : ft (indexL rss) (indexH rss) <;> simp [h]

theorem getD_countPacket (ft : Ft) (rss h : Hash) :
    (countPacket ft rss (indexL h) (indexH h)).getD 0 =
      (ft (indexL h) (indexH h)).getD 0 + if rss = h then 1 else 0 := by
  rw [countPacket_eq]
  by_cases hl : indexL h = indexL rss
  · rw [hl, Function.update_self]
    by_cases hh : indexH h = indexH rss
    · rw [hh, Function.update_self, if_pos (hash_ext rss h hl.symm hh.symm)]
      rfl
    · rw [Function.update_of_ne hh, if_neg (fun hr : rss = h => hh (hr ▸ rfl))]
      rfl
  · rw [Function.update_of_ne hl, if_neg (fun hr : rss = h => hl (hr ▸ rfl))]
    rfl

/-- The script counts every flow exactly. -/
theorem getD_dumpSlave (hs : List Hash) (h : Hash) :
    (dumpSlave hs (indexL h) (indexH h)).getD 0 = hs.count h := by
  have hrun : ∀ (hs : List Hash) (ft : Ft),
      (hs.foldl countPacket ft (indexL h) (indexH h)).getD 0 =
        (ft (indexL h) (indexH h)).getD 0 + hs.count h := by
    intro hs
    induction hs with
    | nil => intro ft; rfl
    | cons rss hs ih =>
        intro ft
        rw [List.foldl_cons, ih, getD_countPacket, List.count_cons, Nat.add_assoc,
          Nat.add_comm (hs.count h)]
        simp only [beq_iff_eq]
  have hempty : (Ft.empty (indexL h) (indexH h)).getD 0 = 0 := rfl
  rw [dumpSlave, hrun, hempty, Nat.zero_add]

end FlowLevel
end FloWatcher
