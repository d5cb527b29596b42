/-
  LinearHeap/Script/Profile.lean
  ==============================
  **Scripts shaped like a guest at work.**  Request sizes come from a linear
  congruential generator on 64-bit words: its upper bits make four in five
  requests small, 1 to 32 bytes, and the rest 33 to 512.  A profile frees at
  every third step, so the heap grows slowly while all chains see traffic.
-/
import LinearHeap.Script.Basic

namespace LinearHeap

namespace Script

/-! ### Request sizes -/

def nextState (state : UInt64) : UInt64 := state * 6364136223846793005 + 1442695040888963407

/-- The request size that a state of the generator stands for. -/
def sizeOfState (state : UInt64) : Word :=
  let r := (state >>> 33).toNat
  if r % 5 = 0 then UInt32.ofNat (33 + r % 480) else UInt32.ofNat (1 + r % 32)

/-- The next `n` request sizes after a state, behind those made before. -/
def drawAfter : (n : Nat) → (state : UInt64) → Array Word → Array Word
  | 0, _, sizes => sizes
  | n + 1, state, sizes =>
      let state := nextState state
      drawAfter n state (sizes.push (sizeOfState state))

/-- The first `n` request sizes of a seed. -/
def drawSizes (n : Nat) (seed : UInt64) : List Word := (drawAfter n seed #[]).toList

theorem sizeOfState_bounds (state : UInt64) :
    1 ≤ (sizeOfState state).toNat ∧ (sizeOfState state).toNat ≤ 512 := by
  simp only [sizeOfState]
  generalize (state >>> 33).toNat = r
  have h480 : r % 480 < 480 := Nat.mod_lt _ (by decide)
  have h32 : r % 32 < 32 := Nat.mod_lt _ (by decide)
  by_cases h : r % 5 = 0
  · rw [if_pos h, UInt32.toNat_ofNat', Nat.mod_eq_of_lt (by omega)]
    omega
  · rw [if_neg h, UInt32.toNat_ofNat', Nat.mod_eq_of_lt (by omega)]
    omega

/-! ### Profiles -/

/-- The step at position `i` of a profile, for the request size drawn for it.  Every third
    step frees. -/
def profileStep (size : Word) (i : Nat) : Step :=
  if i % 3 = 2 then .free ((size.toNat * 31) ^^^ i) else .alloc size

def profile (n : Nat) (seed : UInt64) : Script :=
  (drawSizes n seed).zipIdx.map fun (size, i) => profileStep size i

def shortProfile (seed : UInt64) : Script := profile 10000 seed

def longProfile (seed : UInt64) : Script := profile 100000 seed

/-- Memory large enough for every profile, in bytes. -/
def ampleMemory : Nat := 16 * 1024 * 1024

/-! ### Plain scripts -/

/-- Allocates and frees one block of every small size, the smallest first. -/
def binRound : Script :=
  SizeClass.all.flatMap fun c => [.alloc (SizeClass.bytes c), .free 0]

/-- Allocates and frees one block of every small size, again and again. -/
def binRounds (rounds : Nat) : Script := (List.replicate rounds binRound).flatten

/-- The `i`-th size of a fixed walk through 1 to 256 that starts at 1 and goes 38 up, round
    and round. -/
def strideSize (i : Nat) : Word := UInt32.ofNat (1 + 38 * i % 256)

/-- Small and large requests in a fixed walk of sizes, with every third step freeing an older
    allocation. -/
def strided (n : Nat) : Script :=
  (List.range n).map fun i =>
    if i % 3 = 2 then .free (i / 2) else .alloc (strideSize (i - i / 3))

end Script

end LinearHeap
