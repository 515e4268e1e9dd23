import Xv6.Vm.Memory

/-!
# Page tables

The functions of `vm.c` on user page tables. A table has two levels of 1024 words; `walk` finds the
word of a page, and makes the second level where it is missing. Addresses are 32-bit numbers, and
the loops over pages count in them; a loop that would go round for ever is `spin`, after as many turns
as there are pages.

`copyout`, `copyin` and `copyinstr` work on the page table that they are given, but `vmfault` takes
the size and the table of the current process.
-/

namespace Xv6.Vm

/-- The turns of a loop over pages: one more than there are pages. -/
abbrev turns : ℕ := 2 ^ 20 + 1

/-- `a + PGSIZE`, on 32-bit numbers. -/
def nextPage (a : ℕ) : ℕ := (a + pgsize) % 2 ^ 32

/-- `walk`: the address of the word of `va`. -/
def walk (pagetable va : ℕ) (alloc : Bool) : PhysM (Option ℕ) :=
  if va ≥ maxva then panic "walk"
  else do
    let w ← loadWord (pagetable + 4 * px1 va)
    if w.testBit vBit then return some (pte2pa w + 4 * px0 va)
    else if !alloc then return none
    else
      match ← kalloc with
      | none => return none
      | some t => do
        zeroPage t
        storeWord (pagetable + 4 * px1 va) (pa2pte t ||| pteV)
        return some (t + 4 * px0 va)

/-- `walkaddr`. -/
def walkaddr (pagetable va : ℕ) : PhysM ℕ :=
  if va ≥ maxva then return 0
  else do
    match ← walk pagetable va false with
    | none => return 0
    | some pte =>
      let w ← loadWord pte
      if !w.testBit vBit then return 0
      else if !w.testBit uBit then return 0
      else return pte2pa w

/-- The loop of `mappages`. -/
def mapLoop (pagetable last perm : ℕ) : ℕ → ℕ → ℕ → PhysM Bool
  | 0, _, _ => throw .spin
  | k + 1, a, pa => do
    match ← walk pagetable a true with
    | none => return false
    | some pte =>
      let w ← loadWord pte
      if w.testBit vBit then panic "mappages: remap"
      else
        storeWord pte (pa2pte pa ||| perm ||| pteV)
        if a = last then return true
        else mapLoop pagetable last perm k (nextPage a) (nextPage pa)

/-- `mappages`; `false` is -1. -/
def mappages (pagetable va size pa perm : ℕ) : PhysM Bool :=
  if va % pgsize ≠ 0 then panic "mappages: va not aligned"
  else if size % pgsize ≠ 0 then panic "mappages: size not aligned"
  else if size = 0 then panic "mappages: size"
  else mapLoop pagetable ((va + size + 2 ^ 32 - pgsize) % 2 ^ 32) perm turns va pa

/-- `uvmcreate`. -/
def uvmcreate : PhysM (Option ℕ) := do
  match ← kalloc with
  | none => return none
  | some pagetable => do
    zeroPage pagetable
    return some pagetable

variable (K : Layout)

/-- A mapping is removed, and its frame freed or not. -/
def dropPte (doFree : Bool) (pte w : ℕ) : PhysM Unit :=
  if doFree then do
    kfree K (pte2pa w)
    storeWord pte 0
  else storeWord pte 0

/-- The loop of `uvmunmap`. -/
def unmapLoop (pagetable stop : ℕ) (doFree : Bool) : ℕ → ℕ → PhysM Unit
  | 0, _ => throw .spin
  | k + 1, a =>
    if a < stop then do
      match ← walk pagetable a false with
      | none => unmapLoop pagetable stop doFree k (nextPage a)
      | some pte =>
        let w ← loadWord pte
        if !w.testBit vBit then unmapLoop pagetable stop doFree k (nextPage a)
        else
          dropPte K doFree pte w
          unmapLoop pagetable stop doFree k (nextPage a)
    else return

/-- `uvmunmap`. -/
def uvmunmap (pagetable va npages : ℕ) (doFree : Bool) : PhysM Unit :=
  if va % pgsize ≠ 0 then panic "uvmunmap: not aligned"
  else unmapLoop K pagetable ((va + npages * pgsize) % 2 ^ 32) doFree turns va

/-- `uvmdealloc`. -/
def uvmdealloc (pagetable oldsz newsz : ℕ) : PhysM ℕ :=
  if newsz ≥ oldsz then return oldsz
  else if pgroundup newsz < pgroundup oldsz then do
    uvmunmap K pagetable (pgroundup newsz) ((pgroundup oldsz - pgroundup newsz) / pgsize) true
    return newsz
  else return newsz

/-- The loop of `uvmalloc`; `oldsz` is rounded. -/
def allocLoop (pagetable oldsz newsz xperm : ℕ) : ℕ → ℕ → PhysM ℕ
  | 0, _ => throw .spin
  | k + 1, a =>
    if a < newsz then do
      match ← kalloc with
      | none => do
        let _ ← uvmdealloc K pagetable a oldsz
        return 0
      | some mem => do
        zeroPage mem
        if ← mappages pagetable a pgsize mem (pteR ||| pteU ||| xperm) then
          allocLoop pagetable oldsz newsz xperm k (nextPage a)
        else do
          kfree K mem
          let _ ← uvmdealloc K pagetable a oldsz
          return 0
    else return newsz

/-- `uvmalloc`. -/
def uvmalloc (pagetable oldsz newsz xperm : ℕ) : PhysM ℕ :=
  if newsz < oldsz then return oldsz
  else allocLoop K pagetable (pgroundup oldsz) newsz xperm turns (pgroundup oldsz)

/-- The loop of `freewalk` over the words of a page, of which `k` are left; `child` is what is done to
a page of the next level. -/
def freeLoop (child : ℕ → PhysM Unit) (pagetable : ℕ) : ℕ → PhysM Unit
  | 0 => return
  | k + 1 => do
    let pte ← loadWord (pagetable + 4 * (1024 - (k + 1)))
    if pte.testBit vBit ∧ ¬ (pte.testBit rBit ∨ pte.testBit wBit ∨ pte.testBit xBit) then
      child (pte2pa pte)
      storeWord (pagetable + 4 * (1024 - (k + 1))) 0
      freeLoop child pagetable k
    else if pte.testBit vBit then panic "freewalk: leaf"
    else freeLoop child pagetable k

/-- `freewalk`, with a bound on the depth of the recursion. -/
def freewalk : ℕ → ℕ → PhysM Unit
  | 0, _ => throw .spin
  | d + 1, pagetable => do
    freeLoop (freewalk d) pagetable 1024
    kfree K pagetable

/-- `uvmfree`. -/
def uvmfree (pagetable sz : ℕ) : PhysM Unit :=
  if sz > 0 then do
    uvmunmap K pagetable 0 (pgroundup sz / pgsize) true
    freewalk K turns pagetable
  else freewalk K turns pagetable

/-- The loop of `uvmcopy`. -/
def copyLoop (old new sz : ℕ) : ℕ → ℕ → PhysM Bool
  | 0, _ => throw .spin
  | k + 1, i =>
    if i < sz then do
      match ← walk old i false with
      | none => copyLoop old new sz k (nextPage i)
      | some pte =>
        let w ← loadWord pte
        if !w.testBit vBit then copyLoop old new sz k (nextPage i)
        else
          match ← kalloc with
          | none => do
            uvmunmap K new 0 (i / pgsize) true
            return false
          | some mem => do
            memmove mem (pte2pa w) pgsize
            if ← mappages new i pgsize mem (pteFlags w) then
              copyLoop old new sz k (nextPage i)
            else do
              kfree K mem
              uvmunmap K new 0 (i / pgsize) true
              return false
    else return true

/-- `uvmcopy`; `false` is -1. -/
def uvmcopy (old new sz : ℕ) : PhysM Bool := copyLoop K old new sz turns 0

/-- `uvmclear`. -/
def uvmclear (pagetable va : ℕ) : PhysM Unit := do
  match ← walk pagetable va false with
  | none => panic "uvmclear"
  | some pte =>
    let w ← loadWord pte
    storeWord pte (w &&& (2 ^ 32 - 1 - pteU))

/-- `ismapped`. -/
def ismapped (pagetable va : ℕ) : PhysM Bool := do
  match ← walk pagetable va false with
  | none => return false
  | some pte =>
    let w ← loadWord pte
    return w.testBit vBit

/-- What `vmfault` reads of the current process. -/
structure Self where
  sz : ℕ
  pagetable : ℕ

variable (self : Self)

/-- `vmfault`. -/
def vmfault (pagetable va : ℕ) : PhysM ℕ :=
  if va ≥ self.sz then return 0
  else do
    if ← ismapped pagetable (pgrounddown va) then return 0
    else
      match ← kalloc with
      | none => return 0
      | some mem => do
        zeroPage mem
        if ← mappages self.pagetable (pgrounddown va) pgsize mem (pteW ||| pteU ||| pteR) then
          return mem
        else do
          kfree K mem
          return 0

/-- The frame of a page, which `vmfault` may have to map first; 0 is failure. -/
def frameFor (pagetable va0 : ℕ) : PhysM ℕ := do
  let pa0 ← walkaddr pagetable va0
  if pa0 = 0 then vmfault K self pagetable va0 else return pa0

/-- The loop of `copyout`. -/
def copyoutLoop (pagetable : ℕ) : ℕ → ℕ → List UInt8 → PhysM Bool
  | 0, _, _ => throw .spin
  | k + 1, dstva, src =>
    if src.length > 0 then
      if pgrounddown dstva ≥ maxva then return false
      else do
        let pa0 ← frameFor K self pagetable (pgrounddown dstva)
        if pa0 = 0 then return false
        else
          let pte ← walk pagetable (pgrounddown dstva) false
          let w ← loadWord (pte.getD 0)
          if !w.testBit wBit then return false
          else
            let n := min (pgsize - (dstva - pgrounddown dstva)) src.length
            poke (pa0 + (dstva - pgrounddown dstva)) (src.take n)
            copyoutLoop pagetable k (nextPage (pgrounddown dstva)) (src.drop n)
    else return true

/-- `copyout`; `false` is -1. -/
def copyout (pagetable dstva : ℕ) (src : List UInt8) : PhysM Bool :=
  copyoutLoop K self pagetable turns dstva src

/-- The loop of `copyin`; `acc` is what has been copied. -/
def copyinLoop (pagetable : ℕ) : ℕ → ℕ → ℕ → List UInt8 → PhysM (Bool × List UInt8)
  | 0, _, _, _ => throw .spin
  | k + 1, srcva, len, acc =>
    if len > 0 then do
      let pa0 ← frameFor K self pagetable (pgrounddown srcva)
      if pa0 = 0 then return (false, acc)
      else
        let n := min (pgsize - (srcva - pgrounddown srcva)) len
        let l ← peek (pa0 + (srcva - pgrounddown srcva)) n
        copyinLoop pagetable k (nextPage (pgrounddown srcva)) (len - n) (acc ++ l)
    else return (true, acc)

/-- `copyin`: whether it succeeds, and the bytes it stores at `dst`. -/
def copyin (pagetable srcva len : ℕ) : PhysM (Bool × List UInt8) :=
  copyinLoop K self pagetable turns srcva len []

/-- The inner loop of `copyinstr`: whether there is a NUL in the `n` bytes at `p`, and the bytes up to
it. -/
def strLoop : ℕ → ℕ → PhysM (Bool × List UInt8)
  | 0, _ => return (false, [])
  | n + 1, p => do
    let l ← peek p 1
    if l.headD 0 = 0 then return (true, [0])
    else
      let r ← strLoop n (p + 1)
      return (r.1, l.headD 0 :: r.2)

/-- The loop of `copyinstr`. -/
def copyinstrLoop (pagetable : ℕ) : ℕ → ℕ → ℕ → List UInt8 → PhysM (Bool × List UInt8)
  | 0, _, _, _ => throw .spin
  | k + 1, srcva, max, acc =>
    if max > 0 then do
      let pa0 ← walkaddr pagetable (pgrounddown srcva)
      if pa0 = 0 then return (false, acc)
      else
        let n := min (pgsize - (srcva - pgrounddown srcva)) max
        let r ← strLoop n (pa0 + (srcva - pgrounddown srcva))
        if r.1 then return (true, acc ++ r.2)
        else copyinstrLoop pagetable k (nextPage (pgrounddown srcva)) (max - n) (acc ++ r.2)
    else return (false, acc)

/-- `copyinstr`: whether it succeeds, and the bytes it stores at `dst`. -/
def copyinstr (pagetable srcva max : ℕ) : PhysM (Bool × List UInt8) :=
  copyinstrLoop pagetable turns srcva max []

end Xv6.Vm
