import ZephyrSiot.PointJson

/-!
# The string codecs in memory

`json_escape_string` and `json_unescape_string` of `lib/point.c` again, byte by byte on the arrays
`src` and `dst`. Reading or storing a byte that is not the array's is `none`. The indices are
natural numbers: two arrays in one memory leave room for `di + 2` in a `size_t`.
-/

namespace ZephyrSiot
open CStr

/-- The loop, from `si` and `di` on: where it stops, and what `dst` holds then. -/
def jsonEscapeString.memoryLoop (src : Bytes) (srcLen dstLen si di : Nat) (dst : Bytes) :
    Option (Nat × Bytes) :=
  if si < srcLen then do
    let c ← src[si]?
    if c = nul then some (di, dst)
    else
      let needed := if c = quote ∨ c = backslash then 2 else 1
      if di + needed ≥ dstLen then some (di, dst)
      else if needed = 2 then do
        let dst ← store dst di backslash
        let dst ← store dst (di + 1) c
        memoryLoop src srcLen dstLen (si + 1) (di + 2) dst
      else do
        let dst ← store dst di c
        memoryLoop src srcLen dstLen (si + 1) (di + 1) dst
  else some (di, dst)
termination_by srcLen - si

/-- What is returned, and what `dst` holds then. -/
def jsonEscapeString.inMemory (src : Bytes) (srcLen : Nat) (dst : Bytes) (dstLen : Nat) :
    Option (Nat × Bytes) :=
  if dstLen = 0 then some (0, dst)
  else do
    let (di, dst) ← memoryLoop src srcLen dstLen 0 0 dst
    let dst ← store dst di nul
    some (di, dst)

/-- The loop, from `si` and `di` on: where it stops, and what `dst` holds then. -/
def jsonUnescapeString.memoryLoop (src : Bytes) (srcLen dstLen si di : Nat) (dst : Bytes) :
    Option (Nat × Bytes) :=
  if si < srcLen then do
    let c ← src[si]?
    if c = nul then some (di, dst)
    else if c = backslash ∧ si + 1 < srcLen then do
      let next ← src[si + 1]?
      let decoded := decode next
      if di + 1 ≥ dstLen then some (di, dst)
      else do
        let dst ← store dst di decoded
        -- `si` is advanced once more in the body
        if decoded ≠ c then memoryLoop src srcLen dstLen (si + 2) (di + 1) dst
        else memoryLoop src srcLen dstLen (si + 1) (di + 1) dst
    else if di + 1 ≥ dstLen then some (di, dst)
    else do
      let dst ← store dst di c
      memoryLoop src srcLen dstLen (si + 1) (di + 1) dst
  else some (di, dst)
termination_by srcLen - si

/-- What is returned, and what `dst` holds then. -/
def jsonUnescapeString.inMemory (src : Bytes) (srcLen : Nat) (dst : Bytes) (dstLen : Nat) :
    Option (Nat × Bytes) :=
  if dstLen = 0 then some (0, dst)
  else do
    let (di, dst) ← memoryLoop src srcLen dstLen 0 0 dst
    let dst ← store dst di nul
    some (di, dst)

end ZephyrSiot
