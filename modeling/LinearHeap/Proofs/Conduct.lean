/-
  LinearHeap/Proofs/Conduct.lean
  ==============================
  **What every act of the heap keeps to, on any memory at all.**  Nothing is assumed
  here about chains, headers or the frontier: guests may have overwritten all of
  them, and memory may have been cut anywhere.

  An act is `Steady` on memories of `n` bytes if it keeps their size, if what it
  does depends on its own state and the bytes only, and not on the meter or the
  journal, and if the values it returns have a given property.  There is one rule
  for each way to build an act, and one lemma for each act of the heap.  The
  property worth having is that a payload address is handed out only if the header
  below it lies in memory (`Heap.steady_allocate`).
-/
import LinearHeap.Heap.Slice

namespace LinearHeap

/-- Two outcomes that differ in meter and journal at most. -/
structure Outcome.Same {σ α : Type} (o o' : Outcome σ α) : Prop where
  result : o'.result = o.result
  own : o'.own = o.own
  memory : o'.ambient.memory = o.ambient.memory

namespace Act

variable {σ τ α β : Type}

structure Steady (n : Nat) (x : Act σ α) (Q : α → Prop) : Prop where
  same : ∀ s m m', m.memory.size = n → m'.memory = m.memory → (x s m).Same (x s m')
  size : ∀ s m, m.memory.size = n → (x s m).ambient.memory.size = n
  value : ∀ s m a, m.memory.size = n → (x s m).result = .ok a → Q a

variable {n : Nat} {P Q : α → Prop} {R : β → Prop} {x : Act σ α}

/-! ### Rules -/

theorem Steady.mono (h : x.Steady n P) (hPQ : ∀ a, P a → Q a) : x.Steady n Q where
  same := h.same
  size := h.size
  value := fun s m a hn ha => hPQ a (h.value s m a hn ha)

theorem steady_pure {a : α} (ha : Q a) : (pure a : Act σ α).Steady n Q where
  same := by
    intro s m m' _ hm
    exact ⟨rfl, rfl, hm⟩
  size := fun _ _ hn => hn
  value := by
    intro s m b _ hb
    cases hb
    exact ha

theorem steady_fault {e : Fault} : (fault e : Act σ α).Steady n Q where
  same := by
    intro s m m' _ hm
    exact ⟨rfl, rfl, hm⟩
  size := fun _ _ hn => hn
  value := by
    intro s m b _ hb
    cases hb

theorem steady_check {r : Except Fault α} : (check r : Act σ α).Steady n (r = .ok ·) := by
  cases r with
  | error e => exact steady_fault
  | ok a => exact steady_pure rfl

theorem Steady.bind {f : α → Act σ β} (hx : x.Steady n P)
    (hf : ∀ a, P a → (f a).Steady n R) : (x >>= f).Steady n R where
  same := by
    intro s m m' hn hm
    have hsame := hx.same s m m' hn hm
    rcases hxm : x s m with ⟨e | a, s₁, m₁⟩
    · obtain ⟨hresult, hown, hmemory⟩ := hxm ▸ hsame
      rcases hxm' : x s m' with ⟨r, s₂, m₂⟩
      rw [hxm'] at hresult hown hmemory
      obtain rfl : r = .error e := hresult
      rw [bind_of_error hxm, bind_of_error hxm']
      exact ⟨rfl, hown, hmemory⟩
    · obtain ⟨hresult, hown, hmemory⟩ := hxm ▸ hsame
      rcases hxm' : x s m' with ⟨r, s₂, m₂⟩
      rw [hxm'] at hresult hown hmemory
      obtain rfl : r = .ok a := hresult
      obtain rfl : s₂ = s₁ := hown
      have hsize := hxm ▸ hx.size s m hn
      have ha := hx.value s m a hn (hxm ▸ rfl)
      rw [bind_of_ok hxm, bind_of_ok hxm']
      exact (hf a ha).same s₂ m₁ m₂ hsize hmemory
  size := by
    intro s m hn
    have hsize := hx.size s m hn
    have hvalue := hx.value s m
    rcases hxm : x s m with ⟨e | a, s₁, m₁⟩ <;> rw [hxm] at hsize hvalue
    · rw [bind_of_error hxm]
      exact hsize
    · rw [bind_of_ok hxm]
      exact (hf a (hvalue a hn rfl)).size s₁ m₁ hsize
  value := by
    intro s m b hn hb
    have hsize := hx.size s m hn
    have hvalue := hx.value s m
    rcases hxm : x s m with ⟨e | a, s₁, m₁⟩ <;> rw [hxm] at hsize hvalue
    · rw [bind_of_error hxm] at hb
      cases hb
    · rw [bind_of_ok hxm] at hb
      exact (hf a (hvalue a hn rfl)).value s₁ m₁ b hsize hb

theorem steady_own : (own : Act σ σ).Steady n fun _ => True where
  same := by
    intro s m m' _ hm
    exact ⟨rfl, rfl, hm⟩
  size := fun _ _ hn => hn
  value := fun _ _ _ _ _ => trivial

theorem steady_update {f : σ → σ} : (update f).Steady n fun _ => True where
  same := by
    intro s m m' _ hm
    exact ⟨rfl, rfl, hm⟩
  size := fun _ _ hn => hn
  value := fun _ _ _ _ _ => trivial

theorem steady_note {e : Event} : (note e : Act σ Unit).Steady n fun _ => True where
  same := by
    intro s m m' _ hm
    exact ⟨rfl, rfl, hm⟩
  size := fun _ _ hn => hn
  value := fun _ _ _ _ _ => trivial

theorem steady_memorySize : (memorySize : Act σ Nat).Steady n fun _ => True where
  same := by
    intro s m m' _ hm
    exact ⟨congrArg (fun memory : Memory => Except.ok memory.size) hm, rfl, hm⟩
  size := fun _ _ hn => hn
  value := fun _ _ _ _ _ => trivial

theorem Steady.within (p : Part τ σ) (hx : x.Steady n Q) : (within p x).Steady n Q where
  same := by
    intro t m m' hn hm
    obtain ⟨hresult, hown, hmemory⟩ := hx.same (p.get t) m m' hn hm
    exact ⟨hresult, congrArg (p.set t) hown, hmemory⟩
  size := fun t m hn => hx.size (p.get t) m hn
  value := fun t m a hn ha => hx.value (p.get t) m a hn ha

theorem steady_load {a : Addr} : (load a : Act σ Word).Steady n fun _ => a.toNat + 4 ≤ n where
  same := by
    intro s m m' _ hm
    cases hw : m.memory.load? a with
    | none =>
        rw [load_of_none hw, load_of_none (hm ▸ hw)]
        exact ⟨by rw [hm], rfl, hm⟩
    | some w =>
        rw [load_of_some hw, load_of_some (hm ▸ hw)]
        exact ⟨rfl, rfl, hm⟩
  size := by
    intro s m hn
    cases hw : m.memory.load? a with
    | none =>
        rw [load_of_none hw]
        exact hn
    | some w =>
        rw [load_of_some hw]
        exact hn
  value := by
    intro s m b hn hb
    by_cases hw : m.memory.HasWord a
    · exact hn ▸ Memory.hasWord_iff.1 hw
    · rw [load_of_none (Memory.load?_eq_none_iff.2 hw)] at hb
      cases hb

theorem steady_store {a : Addr} {w : Word} :
    (store a w : Act σ Unit).Steady n fun _ => a.toNat + 4 ≤ n where
  same := by
    intro s m m' _ hm
    by_cases hw : m.memory.HasWord a
    · rw [store_of_hasWord hw, store_of_hasWord (hm ▸ hw)]
      exact ⟨rfl, rfl, by rw [hm]⟩
    · rw [store_of_not_hasWord hw, store_of_not_hasWord (hm ▸ hw)]
      exact ⟨by rw [hm], rfl, hm⟩
  size := by
    intro s m hn
    by_cases hw : m.memory.HasWord a
    · rw [store_of_hasWord hw]
      exact (Memory.size_store m.memory a w).trans hn
    · rw [store_of_not_hasWord hw]
      exact hn
  value := by
    intro s m b hn hb
    by_cases hw : m.memory.HasWord a
    · exact hn ▸ Memory.hasWord_iff.1 hw
    · rw [store_of_not_hasWord hw] at hb
      cases hb

end Act

open Act

variable {n : Nat}

/-! ### Blocks -/

namespace Block

variable {σ : Type}

theorem steady_readSize (b : Block) :
    (b.readSize : Act σ Word).Steady n fun _ => b.header.toNat + 4 ≤ n :=
  steady_load

theorem steady_readLink (b : Block) :
    (b.readLink : Act σ Link).Steady n fun _ => b.header.toNat + 8 ≤ n := by
  refine Steady.bind (steady_check (r := b.linkSlot)) fun slot hslot => ?_
  refine Steady.bind steady_load fun w hw => ?_
  have hslot := payload_eq_ok_iff.1 hslot
  exact steady_pure (by omega)

theorem steady_writeSize (b : Block) (size : Word) :
    (b.writeSize size : Act σ Unit).Steady n fun _ => b.header.toNat + 4 ≤ n :=
  steady_store

theorem steady_writeLink (b : Block) (next : Link) :
    (b.writeLink next : Act σ Unit).Steady n fun _ => True :=
  Steady.bind (steady_check (r := b.linkSlot)) fun _ _ => steady_store.mono fun _ _ => trivial

end Block

/-! ### Chains -/

namespace Bins

theorem steady_pop (c : SizeClass) :
    (pop c).Steady n fun l => ∀ b, l = some b → b.header.toNat + 8 ≤ n := by
  refine Steady.bind steady_own fun bins _ => ?_
  cases bins.head c with
  | none => exact steady_pure nofun
  | some b =>
      refine Steady.bind (b.steady_readLink) fun next hb => ?_
      refine Steady.bind steady_update fun _ _ => ?_
      refine steady_pure ?_
      intro _ heq
      cases heq
      exact hb

theorem steady_push (c : SizeClass) (b : Block) : (push c b).Steady n fun _ => True :=
  Steady.bind steady_own fun bins _ =>
    Steady.bind (b.steady_writeLink (bins.head c)) fun _ _ => steady_update

end Bins

namespace FitList

theorem steady_push (b : Block) : (push b).Steady n fun _ => True :=
  Steady.bind steady_own fun list _ =>
    Steady.bind (b.steady_writeLink list.head) fun _ _ => steady_update

theorem steady_splice (prev next : Link) : (splice prev next).Steady n fun _ => True := by
  cases prev with
  | none => exact steady_update
  | some p => exact p.steady_writeLink next

theorem steady_cut (b : Block) (free size : Word) :
    (cut b free size).Steady n fun fit => fit.block = b := by
  unfold cut
  dsimp only
  split
  · exact steady_pure rfl
  · refine Steady.bind (steady_check (r := b.payload)) fun payload _ => ?_
    refine Steady.bind (steady_check (r := Word.sum payload size)) fun header _ => ?_
    refine Steady.bind (b.steady_writeSize size) fun _ _ => ?_
    refine Steady.bind (Block.steady_writeSize ⟨header⟩ _) fun _ _ => ?_
    exact Steady.bind steady_note fun _ _ => steady_pure rfl

/-- A block that is found was read, header and link. -/
theorem steady_search (size : Word) (steps : Nat) (prev cursor : Link) :
    (search size steps prev cursor).Steady n fun found =>
      ∀ fit, found = some fit → fit.block.header.toNat + 8 ≤ n := by
  induction steps generalizing prev cursor with
  | zero =>
      cases cursor with
      | none => exact steady_pure nofun
      | some b => exact steady_fault
  | succ steps ih =>
      cases cursor with
      | none => exact steady_pure nofun
      | some b =>
          refine Steady.bind b.steady_readSize fun free _ => ?_
          refine Steady.bind b.steady_readLink fun next hb => ?_
          split
          · exact ih (some b) next
          · refine Steady.bind (steady_splice prev next) fun _ _ => ?_
            refine Steady.bind (steady_cut b free size) fun fit hfit => ?_
            refine steady_pure ?_
            intro _ heq
            cases heq
            exact hfit ▸ hb

theorem steady_take (size : Word) : (take size).Steady n fun found =>
    ∀ fit, found = some fit → fit.block.header.toNat + 8 ≤ n :=
  Steady.bind steady_memorySize fun _ _ =>
    Steady.bind steady_own fun list _ => steady_search size _ none list.head

end FitList

theorem Region.steady_carve (size : Word) :
    (carve size).Steady n fun b => b.header.toNat + 4 ≤ n := by
  refine Steady.bind steady_own fun r _ => ?_
  refine Steady.bind steady_memorySize fun bytes _ => ?_
  dsimp only
  split
  · exact steady_fault
  · split
    · exact steady_fault
    · refine Steady.bind (Block.steady_writeSize ⟨r.frontier⟩ size) fun _ hb => ?_
      refine Steady.bind steady_update fun _ _ => ?_
      exact Steady.bind steady_note fun _ _ => steady_pure hb

/-! ### The heap -/

namespace Heap

theorem steady_shelve (b : Block) : (shelve b).Steady n fun _ => True := by
  refine Steady.bind b.steady_readSize fun size _ => ?_
  cases SizeClass.ofSize? size with
  | none =>
      refine Steady.bind ((FitList.steady_push b).within fitsPart) fun _ _ => ?_
      exact Steady.bind steady_update fun _ _ => steady_note
  | some c =>
      refine Steady.bind ((Bins.steady_push c b).within binsPart) fun _ _ => ?_
      exact Steady.bind steady_update fun _ _ => steady_note

theorem steady_free (a : Addr) : (free a).Steady n fun _ => True :=
  Steady.bind (steady_check (r := Block.ofPayload a)) fun b _ => steady_shelve b

theorem steady_fromWilderness (size : Word) :
    (fromWilderness size).Steady n fun b => b.header.toNat + 4 ≤ n := by
  refine Steady.bind ((Region.steady_carve size).within regionPart) fun b hb => ?_
  exact Steady.bind steady_update fun _ _ => steady_pure hb

theorem steady_fromBin (c : SizeClass) (size : Word) :
    (fromBin c size).Steady n fun b => b.header.toNat + 4 ≤ n := by
  refine Steady.bind ((Bins.steady_pop c).within binsPart) fun l hl => ?_
  rcases l with _ | b
  · exact steady_fromWilderness size
  · have hb := hl b rfl
    exact Steady.bind steady_update fun _ _ => steady_pure (by omega)

theorem steady_fromFits (size : Word) :
    (fromFits size).Steady n fun b => b.header.toNat + 4 ≤ n := by
  refine Steady.bind ((FitList.steady_take size).within fitsPart) fun found hfound => ?_
  rcases found with _ | (b | ⟨b, rest⟩)
  · exact steady_fromWilderness size
  · have hb : b.header.toNat + 8 ≤ n := hfound _ rfl
    exact Steady.bind steady_update fun _ _ => steady_pure (by omega)
  · have hb : b.header.toNat + 8 ≤ n := hfound _ rfl
    refine Steady.bind steady_update fun _ _ => ?_
    exact Steady.bind (steady_shelve rest) fun _ _ => steady_pure (by omega)

theorem steady_serve (size : Word) :
    (serve size).Steady n fun b => b.header.toNat + 4 ≤ n := by
  unfold serve
  cases SizeClass.ofSize? size with
  | none => exact steady_fromFits size
  | some c => exact steady_fromBin c size

/-- The header below a payload address that is handed out lies in memory. -/
theorem steady_allocate (request : Word) : (allocate request).Steady n fun a =>
    ∃ b : Block, a.toNat = b.header.toNat + 4 ∧ b.header.toNat + 4 ≤ n := by
  refine Steady.bind (steady_check (r := paddedSize request)) fun size _ => ?_
  refine Steady.bind (steady_serve size) fun b hb => ?_
  exact steady_check.mono fun a ha => ⟨b, Block.payload_eq_ok_iff.1 ha, hb⟩

end Heap

/-! ### Slices -/

namespace SliceRecord

variable {σ : Type}

theorem steady_read (handle : Addr) :
    (read handle : Act σ SliceRecord).Steady n fun _ => True := by
  refine Steady.bind steady_load fun data _ => ?_
  refine Steady.bind (steady_check (r := Word.sum handle 4)) fun lengthAt _ => ?_
  exact Steady.bind steady_load fun length _ => steady_pure trivial

theorem steady_write (r : SliceRecord) (handle : Addr) :
    (r.write handle : Act σ Unit).Steady n fun _ => True := by
  refine Steady.bind steady_store fun _ _ => ?_
  refine Steady.bind (steady_check (r := Word.sum handle 4)) fun lengthAt _ => ?_
  exact steady_store.mono fun _ _ => trivial

end SliceRecord

namespace Heap

theorem steady_allocateSlice (length element : Word) :
    (allocateSlice length element).Steady n fun _ => True := by
  refine Steady.bind (steady_check (r := contentSize length element)) fun bytes _ => ?_
  refine Steady.bind (steady_allocate SliceRecord.bytes) fun handle _ => ?_
  refine Steady.bind (steady_allocate bytes) fun data _ => ?_
  exact Steady.bind (SliceRecord.steady_write ⟨data, length⟩ handle) fun _ _ =>
    steady_pure trivial

theorem steady_freeSlice (handle : Addr) : (freeSlice handle).Steady n fun _ => True := by
  refine Steady.bind (SliceRecord.steady_read handle) fun r _ => ?_
  exact Steady.bind (steady_free r.data) fun _ _ => steady_free handle

end Heap

end LinearHeap
