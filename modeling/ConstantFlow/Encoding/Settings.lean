import ConstantFlow.Json
import ConstantFlow.Settings

/-! The JSON form of settings. A reader fills in the fields that are left out and accepts no others, and no array of
values without their names. -/

namespace ConstantFlow.Settings

def fieldNames : List String := ["enable_cache", "squash_history", "max_blocks", "invalidate_self_loops"]

def toJson (s : Settings) : Json :=
  .object [("enable_cache", .bool s.enableCache), ("invalidate_self_loops", .bool s.invalidateSelfLoops),
    ("max_blocks", .nat s.maxBlocks.toNat), ("squash_history", .bool s.squashHistory)]

def ofJson? : Json → Option Settings
  | .object fields =>
    if fields.all fun p => fieldNames.contains p.1 then do
      let j := Json.object fields
      return {
        enableCache := ← j.optional Json.bool? true "enable_cache"
        squashHistory := ← j.optional Json.bool? true "squash_history"
        maxBlocks := ← j.optional Json.uint64? 0 "max_blocks"
        invalidateSelfLoops := ← j.optional Json.bool? true "invalidate_self_loops" }
    else none
  | _ => none

end ConstantFlow.Settings
