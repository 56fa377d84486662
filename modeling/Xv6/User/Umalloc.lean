import Mathlib

/-!
# The user-space allocator (`user/umalloc.c`)

The allocator of Kernighan and Ritchie: a circular free list of blocks through the static header
`base`, each block a `Header` (next block, size in header units) followed by its space.  `free`
walks the list to the block's place in address order and merges it with the blocks on either
side; `malloc` takes the first block that fits, splitting it from its tail; `morecore` asks the
kernel for at least 4096 units with `sbrk` and frees what it gets onto the list.

Addresses are byte addresses; `Header *p + k` is `p + 16 * k`.  The user address space lies below
`MAXVA`, so no address the allocator forms wraps past `2^64`, and addresses are natural numbers.
Sizes are the 32-bit `uint` of the header.  The kernel side of `sbrk` is `growproc`; whether
`uvmalloc` can map the pages asked for is the bound `room` on the break.  The list walks of `free`
and `malloc` carry fuel, each pass of a loop spending one.

* `nunits_cover`: the unit count `malloc` computes covers the request for every `nbytes`;
* `sbrkBytes_toInt`: `morecore` hands `sbrk` the byte count `nu * sizeof(Header)` only when it is
  below `2^31`; `growproc_le`: the break grows by at most `sbrk`'s argument, and a shrink past the
  break leaves it where it is;
* `malloc_max_unmapped`: `malloc(0xffffffff)` on a fresh heap returns a block of `2^28 + 1` units
  whose space starts at the break; `morecore_negative_sbrk`: for `malloc(0x80000000)` `sbrk` is
  asked to shrink and leaves the break alone, and `morecore` writes its header at the break.
-/

namespace Xv6.Umalloc

/-- `sizeof(Header)`: a pointer and a `uint`, aligned to a `long`. -/
def headerSize : ℕ := 16

/-- `union header`, as its `s` member. -/
structure Header where
  /-- `s.ptr`: the next block on the free list. -/
  ptr : ℕ
  /-- `s.size`: the block's size in header units, this header included. -/
  size : UInt32
  deriving DecidableEq, Repr

/-- The allocator's view of the process: the headers in memory, `freep`, and the break `p->sz`
that `sbrk` moves. -/
structure Heap where
  mem : ℕ → Header
  /-- `freep`; `0` is null. -/
  freep : ℕ
  sz : ℕ

namespace Heap

/-- Write the header at `a`. -/
def set (h : Heap) (a : ℕ) (x : Header) : Heap := { h with mem := Function.update h.mem a x }

/-- `p->s.ptr`. -/
def ptr (h : Heap) (p : ℕ) : ℕ := (h.mem p).ptr

/-- `p->s.size`. -/
def size (h : Heap) (p : ℕ) : UInt32 := (h.mem p).size

end Heap

/-! ### The kernel's `sbrk` -/

/-- `growproc(n)` on a break `sz`: the new break, or `none` for `-1`.  Growing calls `uvmalloc`,
which maps the pages up to `sz + n` when there is `room`; shrinking calls `uvmdealloc` with
`sz + n` computed in `uint64`, which leaves the break alone when that sum wraps past `sz`. -/
def growproc (sz room : ℕ) (n : Int32) : Option ℕ :=
  if 0 < n then
    if sz + n.toInt.toNat ≤ room then some (sz + n.toInt.toNat) else none
  else if n < 0 then
    let newsz := (sz + (n.toInt % 2 ^ 64).toNat) % 2 ^ 64
    some (if sz ≤ newsz then sz else newsz)
  else some sz

/-- `sbrk(n)`: the old break and the heap with the new one, or `none` for `(char*)-1`. -/
def sbrk (h : Heap) (room : ℕ) (n : Int32) : Option (ℕ × Heap) :=
  (growproc h.sz room n).map fun sz => (h.sz, { h with sz := sz })

/-! ### `umalloc.c` -/

/-- The search loop of `free(ap)` for the block `bp`: the block `p` after which `bp` goes, or
`none` when the fuel runs out. -/
def freeLoop (h : Heap) (bp : ℕ) : ℕ → ℕ → Option ℕ
  | 0, _ => none
  | fuel + 1, p =>
    if bp > p ∧ bp < h.ptr p then some p
    -- the block goes at the wrap of the list, past the last block or before the first
    else if p ≥ h.ptr p ∧ (bp > p ∨ bp < h.ptr p) then some p
    else freeLoop h bp fuel (h.ptr p)

/-- `free(ap)`: put the block back after `p`, merged with its upper and then its lower
neighbour when they touch it. -/
def free (h : Heap) (fuel ap : ℕ) : Option Heap :=
  let bp := ap - headerSize
  (freeLoop h bp fuel h.freep).map fun p =>
    let h :=
      if bp + headerSize * (h.size bp).toNat = h.ptr p then
        h.set bp ⟨h.ptr (h.ptr p), h.size bp + h.size (h.ptr p)⟩
      else h.set bp ⟨h.ptr p, h.size bp⟩
    let h :=
      if p + headerSize * (h.size p).toNat = bp then
        h.set p ⟨h.ptr bp, h.size p + h.size bp⟩
      else h.set p ⟨bp, h.size p⟩
    { h with freep := p }

/-- `nu * sizeof(Header)`, computed in 64 bits and passed to `sbrk`'s `int`. -/
def sbrkBytes (nu : UInt32) : Int32 := Int32.ofInt (nu.toNat * headerSize)

/-- `morecore(nu)`: at least 4096 units from `sbrk`, freed onto the list; `some none` when `sbrk`
fails, `none` when `free` runs out of fuel. -/
def morecore (h : Heap) (room fuel : ℕ) (nu : UInt32) : Option (Option ℕ × Heap) :=
  let nu := if nu < 4096 then 4096 else nu
  match sbrk h room (sbrkBytes nu) with
  | none => some (none, h)
  | some (p, h) =>
    let h := h.set p { h.mem p with size := nu }
    (free h fuel (p + headerSize)).map fun h => (some h.freep, h)

/-- `nunits` in `malloc`: `(nbytes + sizeof(Header) - 1)/sizeof(Header) + 1`, computed in 64 bits
and stored in a `uint`. -/
def nunits (nbytes : UInt32) : UInt32 :=
  ((nbytes.toNat + headerSize - 1) / headerSize + 1).toUInt32

/-- The loop of `malloc` from `prevp` and `p = prevp->s.ptr`: the pointer it returns (`0` when
`morecore` fails) and the heap, or `none` when the fuel runs out. -/
def mallocLoop (room : ℕ) (nunits : UInt32) : ℕ → Heap → ℕ → ℕ → Option (ℕ × Heap)
  | 0, _, _, _ => none
  | fuel + 1, h, prevp, p =>
    if h.size p ≥ nunits then
      if h.size p = nunits then
        some (p + headerSize, { h.set prevp { h.mem prevp with ptr := h.ptr p } with freep := prevp })
      else
        -- split: the tail of the block is handed out
        let h := h.set p { h.mem p with size := h.size p - nunits }
        let q := p + headerSize * (h.size p).toNat
        some (q + headerSize, { h.set q { h.mem q with size := nunits } with freep := prevp })
    else if p = h.freep then
      match morecore h room fuel nunits with
      | none => none
      | some (none, h) => some (0, h)
      | some (some p, h) => mallocLoop room nunits fuel h p (h.ptr p)
    else mallocLoop room nunits fuel h p (h.ptr p)

/-- `malloc(nbytes)`, with `base` the address of the static header `base`. -/
def malloc (h : Heap) (base room fuel : ℕ) (nbytes : UInt32) : Option (ℕ × Heap) :=
  let h := if h.freep = 0 then { h.set base ⟨base, 0⟩ with freep := base } else h
  mallocLoop room (nunits nbytes) fuel h h.freep (h.ptr h.freep)

/-! ### Sizes -/

/-- The unit count never wraps: for every request it covers the header and `nbytes` bytes. -/
theorem nunits_cover (nbytes : UInt32) : nbytes.toNat + headerSize ≤ headerSize * (nunits nbytes).toNat := by
  have hb := nbytes.toNat_lt
  have hlt : (nbytes.toNat + headerSize - 1) / headerSize + 1 < 2 ^ 32 := by
    unfold headerSize
    omega
  rw [nunits, Nat.toUInt32, UInt32.toNat_ofNat_of_lt' hlt]
  unfold headerSize
  omega

/-- `sbrk` gets the byte count of `nu` units only below `2^31`: from `2^27` units on, the `int`
conversion wraps. -/
theorem sbrkBytes_toInt (nu : UInt32) :
    (sbrkBytes nu).toInt = nu.toNat * headerSize ↔ nu.toNat < 2 ^ 27 := by
  have hb := nu.toNat_lt
  rw [sbrkBytes, Int32.toInt_ofInt, Int.bmod_def]
  simp only [Int32.size, headerSize, Nat.cast_ofNat]
  split_ifs <;> omega

/-- `growproc` never moves the break up by more than `n`, and a shrink by more than the break
wraps in `uint64` and leaves the break where it was. -/
theorem growproc_le {sz room sz' : ℕ} {n : Int32} (h : growproc sz room n = some sz') :
    (sz' : ℤ) ≤ sz + max 0 n.toInt ∧ (n.toInt < 0 → sz < (-n.toInt).toNat → sz' = sz) := by
  have hlo := n.le_toInt
  have hhi := n.toInt_lt
  unfold growproc at h
  split_ifs at h with hpos hroom hneg
  · cases h
    have : 0 < n.toInt := Int32.lt_iff_toInt_lt.1 hpos
    refine ⟨by omega, fun h' => by omega⟩
  · dsimp only at h
    have : n.toInt < 0 := Int32.lt_iff_toInt_lt.1 hneg
    refine ⟨?_, fun _ hgt => ?_⟩
    · split_ifs at h <;> cases h <;> omega
    · -- `sz + n` in `uint64` wraps past `sz`
      split_ifs at h with hle
      · exact (Option.some.inj h).symm
      · exfalso
        apply hle
        omega
  · cases h
    have : n.toInt = 0 := by
      have h1 : ¬ (0 : Int32).toInt < n.toInt := fun h' => hpos (Int32.lt_iff_toInt_lt.2 h')
      have h2 : ¬ n.toInt < (0 : Int32).toInt := fun h' => hneg (Int32.lt_iff_toInt_lt.2 h')
      simp only [Int32.toInt_zero] at h1 h2
      omega
    omega

/-! ### A request near `2^32` -/

/-- On a fresh heap with the break at `0x4000`, `malloc(0xffffffff)` computes `2^28 + 1` units;
`morecore` asks `sbrk` for `(2^28 + 1) * 16 = 2^32 + 16` bytes, which its `int` argument turns
into `16`.  The break moves up by 16 bytes only, yet the block freed onto the list, and handed
out whole, records all `2^28 + 1` units: the space `malloc` returns starts at the new break, and
none of its `0xffffffff` bytes lies below it. -/
theorem malloc_max_unmapped :
    (malloc ⟨fun _ => ⟨0, 0⟩, 0, 0x4000⟩ 0x1000 0x100000 4 0xffffffff).map
        (fun r => (r.1, r.2.sz, r.2.size (r.1 - headerSize))) =
      some (0x4010, 0x4010, 2 ^ 28 + 1) := by
  decide

/-- `malloc(0x80000000)` computes `2^27 + 1` units, whose byte count `2^31 + 16` becomes a negative
`int`: `sbrk` is asked to shrink by more than the break, the `uint64` sum wraps, and `growproc`
succeeds with the break unchanged.  `morecore` then writes the block's header at the old break,
which is the break itself. -/
theorem morecore_negative_sbrk :
    nunits 0x80000000 = 2 ^ 27 + 1 ∧ (sbrkBytes (2 ^ 27 + 1)).toInt = -(2 ^ 31) + 16 ∧
      (sbrk ⟨fun _ => ⟨0, 0⟩, 0x1000, 0x4000⟩ 0x100000 (sbrkBytes (2 ^ 27 + 1))).map
        (fun r => (r.1, r.2.sz)) = some (0x4000, 0x4000) := by
  decide

end Xv6.Umalloc
