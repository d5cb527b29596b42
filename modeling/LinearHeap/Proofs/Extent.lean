/-
  LinearHeap/Proofs/Extent.lean
  =============================
  **Extents and tilings.**  An extent is a block together with the size in its
  header, as plain numbers.  A list of extents tiles a range when each one starts
  where the one before it ends; all separation between blocks comes from there:
  two extents of a tiling never share a byte (`Tiles.apart_of_mem`).

  A tiling changes in two ways only: it grows at its upper end (`Tiles.snoc`), and
  one of its extents falls into two (`Tiles.split`).
-/
import LinearHeap.Proofs.Bytes
import Mathlib.Data.List.Pairwise

namespace LinearHeap

structure Extent where
  header : Nat
  size : Nat
  deriving DecidableEq, Repr

namespace Extent

def payload (e : Extent) : Nat := e.header + 4

/-- One past the last payload byte. -/
def stop (e : Extent) : Nat := e.header + 4 + e.size

def block (e : Extent) : Block := ⟨UInt32.ofNat e.header⟩

/-- The byte at an offset belongs to the extent, header included. -/
def Covers (e : Extent) (i : Nat) : Prop := e.header ≤ i ∧ i < e.stop

def Apart (e f : Extent) : Prop := e.stop ≤ f.header ∨ f.stop ≤ e.header

/-- Word-aligned, and large enough to hold a link. -/
structure Fair (e : Extent) : Prop where
  aligned : e.header % 4 = 0
  words : e.size % 4 = 0
  room : 4 ≤ e.size

/-- The extent, cut in two that lie end to end in its place. -/
structure Parts (e low high : Extent) : Prop where
  fairLow : low.Fair
  fairHigh : high.Fair
  header : low.header = e.header
  meet : high.header = low.stop
  stop : high.stop = e.stop

/-- A fit is cut into what is asked for and a rest that can hold a link. -/
theorem Fair.parts {e : Extent} {size : Nat} (h : e.Fair) (hwords : size % 4 = 0)
    (hleast : 4 ≤ size) (hslack : 12 ≤ e.size - size) :
    Parts e ⟨e.header, size⟩ ⟨e.header + 4 + size, e.size - size - 4⟩ := by
  obtain ⟨haligned, hwhole, -⟩ := h
  refine ⟨⟨haligned, hwords, hleast⟩, ⟨?_, ?_, ?_⟩, rfl, rfl, ?_⟩
  · show (e.header + 4 + size) % 4 = 0
    omega
  · show (e.size - size - 4) % 4 = 0
    omega
  · show 4 ≤ e.size - size - 4
    omega
  · simp only [Extent.stop]
    omega

theorem Apart.symm {e f : Extent} (h : e.Apart f) : f.Apart e := Or.symm h

instance : Std.Symm Apart := ⟨fun _ _ => Apart.symm⟩

instance (e f : Extent) : Decidable (e.Apart f) :=
  inferInstanceAs (Decidable (e.stop ≤ f.header ∨ f.stop ≤ e.header))

theorem not_covers_of_apart {e f : Extent} {i : Nat} (h : e.Apart f) (hi : e.Covers i) :
    ¬ f.Covers i := by
  intro hf
  simp only [Apart, Covers, stop] at h hi hf
  omega

theorem toNat_header_block {e : Extent} (h : e.header < Word.bound) :
    e.block.header.toNat = e.header := toNat_ofNat_of_lt h

end Extent

/-- The extents lie end to end from `lo` to `hi`, in this order. -/
def Tiles (lo hi : Nat) : List Extent → Prop
  | [] => lo = hi
  | e :: es => e.header = lo ∧ e.Fair ∧ Tiles e.stop hi es

namespace Tiles

variable {lo hi : Nat} {es : List Extent}

theorem le (h : Tiles lo hi es) : lo ≤ hi := by
  induction es generalizing lo with
  | nil => exact Nat.le_of_eq h
  | cons e es ih =>
      obtain ⟨rfl, -, htail⟩ := h
      have hle := ih htail
      simp only [Extent.stop] at hle
      omega

theorem aligned (h : Tiles lo hi es) (hlo : lo % 4 = 0) : hi % 4 = 0 := by
  induction es generalizing lo with
  | nil =>
      cases h
      exact hlo
  | cons e es ih =>
      obtain ⟨rfl, hfair, htail⟩ := h
      apply ih htail
      have hwords := hfair.words
      simp only [Extent.stop]
      omega

theorem fair (h : Tiles lo hi es) : ∀ e ∈ es, e.Fair := by
  induction es generalizing lo with
  | nil => intro e he; cases he
  | cons f es ih =>
      obtain ⟨-, hfair, htail⟩ := h
      intro e he
      rcases List.mem_cons.1 he with rfl | he
      · exact hfair
      · exact ih htail e he

theorem bounds (h : Tiles lo hi es) : ∀ e ∈ es, lo ≤ e.header ∧ e.stop ≤ hi := by
  induction es generalizing lo with
  | nil => intro e he; cases he
  | cons f es ih =>
      obtain ⟨rfl, -, htail⟩ := h
      intro e he
      rcases List.mem_cons.1 he with rfl | he
      · exact ⟨Nat.le_refl _, le htail⟩
      · have hb := ih htail e he
        simp only [Extent.stop] at hb ⊢
        omega

theorem sorted (h : Tiles lo hi es) : es.Pairwise fun e f => e.stop ≤ f.header := by
  induction es generalizing lo with
  | nil => exact List.Pairwise.nil
  | cons e es ih =>
      obtain ⟨-, -, htail⟩ := h
      refine List.pairwise_cons.2 ⟨fun f hf => ?_, ih htail⟩
      exact (bounds htail f hf).1

theorem nodup (h : Tiles lo hi es) : es.Nodup := by
  refine (sorted h).imp ?_
  rintro e f hef rfl
  simp only [Extent.stop] at hef
  omega

theorem apart_of_mem (h : Tiles lo hi es) {e f : Extent} (he : e ∈ es) (hf : f ∈ es)
    (hne : e ≠ f) : e.Apart f := by
  have hpair : es.Pairwise Extent.Apart := (sorted h).imp fun hef => Or.inl hef
  exact hpair.forall he hf hne

theorem snoc (h : Tiles lo hi es) {e : Extent} (he : e.header = hi) (hfair : e.Fair) :
    Tiles lo e.stop (es ++ [e]) := by
  induction es generalizing lo with
  | nil =>
      cases h
      exact ⟨he, hfair, rfl⟩
  | cons f es ih =>
      obtain ⟨hf, hff, htail⟩ := h
      exact ⟨hf, hff, ih htail⟩

/-- One extent of a tiling may be replaced by two that lie end to end in its place. -/
theorem split {before after : List Extent} {e low high : Extent}
    (h : Tiles lo hi (before ++ e :: after)) (hp : e.Parts low high) :
    Tiles lo hi (before ++ low :: high :: after) := by
  induction before generalizing lo with
  | nil =>
      obtain ⟨he, -, htail⟩ := h
      refine ⟨hp.header.trans he, hp.fairLow, hp.meet, hp.fairHigh, ?_⟩
      rw [hp.stop]
      exact htail
  | cons f before ih =>
      obtain ⟨hf, hff, htail⟩ := h
      exact ⟨hf, hff, ih htail⟩

end Tiles

end LinearHeap
