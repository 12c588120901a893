import Pintos.Devices.Block
import Mathlib.Data.List.Basic

/-!
# Partition tables (`devices/partition.c`)

`read_partition_table` goes through the four entries of a table and calls itself for each
extended partition. The recursion follows numbers found on the disk, so nothing bounds it:
the model takes fuel, and a scan returns when enough fuel gives one and the same result.

What is on the disk is said apart from the scan. `Chain` lists the partitions of a table
and of the tables below it, each read from its own sector; a list exists exactly when the
chain of tables is finite. The source reads sector 0 at every level (`block_read (block, 0,
pt)`), so that the scan repeats the primary table instead.

Sector numbers are 32-bit; their sums wrap around. `malloc` is taken to succeed.
-/

namespace Pintos

open Lib List Block

/-- `struct partition_table_entry`, the members the scan reads. -/
structure PartitionTableEntry where
  type : UInt8
  offset : Nat
  size : Nat
deriving DecidableEq

/-- `pt->partitions`: the table starts behind the 446 bytes of the loader. -/
def partitions (pt : Mem) : List PartitionTableEntry :=
  (List.range 4).map fun i =>
    { type := pt (446 + 16 * i + 4)
      offset := pt.word (446 + 16 * i + 8)
      size := pt.word (446 + 16 * i + 12) }

/-- `pt->signature`. -/
def signature (pt : Mem) : Nat := (pt 510).toNat + 256 * (pt 511).toNat

def PartitionTableEntry.isEmpty (e : PartitionTableEntry) : Bool := e.size == 0 || e.type == 0

/-- The four types of extended partitions. -/
def PartitionTableEntry.isExtended (e : PartitionTableEntry) : Bool :=
  e.type == 0x05 || e.type == 0x0f || e.type == 0x85 || e.type == 0xc5

inductive BlockType
  | kernel | filesys | scratch | swap | foreign
deriving DecidableEq

/-- The arguments of a call of `found_partition`. -/
structure FoundPartition where
  type : UInt8
  start : Nat
  size : Nat
  partNr : Nat
deriving DecidableEq

/-- What `found_partition` does with a partition. -/
inductive FoundOutcome
  | startsPastEnd (start : Nat)
  | endsPastEnd (last : Nat)
  | registered (type : BlockType) (start size : Nat)
deriving DecidableEq

def foundPartition (d : Block) (p : FoundPartition) : FoundOutcome :=
  let last := (p.start + p.size) % 2 ^ 32
  if d.size ≤ p.start then .startsPastEnd p.start
  else if last < p.start ∨ d.size < last then .endsPastEnd last
  else
    let type : BlockType :=
      if p.type = 0x20 then .kernel
      else if p.type = 0x21 then .filesys
      else if p.type = 0x22 then .scratch
      else if p.type = 0x23 then .swap
      else .foreign
    .registered type p.start p.size

/-- What a scan prints and which partitions it reports, in order. -/
inductive ScanEvent
  | pastEnd (sector : Nat)
  | invalidSignature
  | invalidExtended (sector : Nat)
  | extended (sector : Nat)
  | found (call : FoundPartition) (outcome : FoundOutcome)
  | noPartitions
deriving DecidableEq

/-- The sector of the table an extended entry leads to, and the top-level extended table. -/
def nextTable (sector primary : Nat) (e : PartitionTableEntry) : Nat × Nat :=
  if sector = 0 then (e.offset, e.offset) else ((e.offset + primary) % 2 ^ 32, primary)

/-- The loop of `read_partition_table`; `read` is the recursive call. -/
def parsePartitions (read : Nat → Nat → Nat → Option (List ScanEvent × Nat)) (d : Block)
    (sector primary : Nat) : List PartitionTableEntry → Nat → Option (List ScanEvent × Nat)
  | [], partNr => some ([], partNr)
  | e :: es, partNr =>
    if e.isEmpty then parsePartitions read d sector primary es partNr
    else if e.isExtended then do
      let next := nextTable sector primary e
      let (below, partNr) ← read next.1 next.2 partNr
      let (rest, partNr) ← parsePartitions read d sector primary es partNr
      some (.extended sector :: (below ++ rest), partNr)
    else do
      let call : FoundPartition :=
        ⟨e.type, (e.offset + sector) % 2 ^ 32, e.size, partNr + 1⟩
      let (rest, partNr) ← parsePartitions read d sector primary es (partNr + 1)
      some (.found call (foundPartition d call) :: rest, partNr)

/-- `read_partition_table`; `none` when the fuel is used up. -/
def readPartitionTable (d : Block) : Nat → Nat → Nat → Nat → Option (List ScanEvent × Nat)
  | 0, _, _, _ => none
  | fuel + 1, sector, primary, partNr =>
    if d.size ≤ sector then some ([.pastEnd sector], partNr)
    else
      -- the sector read is 0, whatever `sector` is
      let pt := d.data 0
      if signature pt ≠ 0xaa55 then
        some ([if primary = 0 then .invalidSignature else .invalidExtended sector], partNr)
      else parsePartitions (readPartitionTable d fuel) d sector primary (partitions pt) partNr

/-- `partition_scan`. -/
def partitionScan (d : Block) (fuel : Nat) : Option (List ScanEvent) :=
  match readPartitionTable d fuel 0 0 0 with
  | some (events, partNr) => some (if partNr = 0 then events ++ [.noPartitions] else events)
  | none => none

/-- The calls of `found_partition` in what a scan did. -/
def calls (events : List ScanEvent) : List FoundPartition :=
  events.filterMap fun
    | .found call _ => some call
    | _ => none

/-! ## What is on the disk -/

/-- A primary or logical partition. -/
structure Partition where
  type : UInt8
  start : Nat
  size : Nat
deriving DecidableEq

/-- The partition of an entry, for the table in sector `sector`. -/
def PartitionTableEntry.partition (e : PartitionTableEntry) (sector : Nat) : Partition :=
  ⟨e.type, (e.offset + sector) % 2 ^ 32, e.size⟩

/-- The entries of the table in a sector; no table, no entries. -/
def Block.tableAt (d : Block) (sector : Nat) : List PartitionTableEntry :=
  if sector < d.size ∧ signature (d.data sector) = 0xaa55 then partitions (d.data sector) else []

/-- `Chain d sector primary es ps`: the entries `es` of the table in `sector`, with all tables
below them, hold the partitions `ps`. -/
inductive Chain (d : Block) : Nat → Nat → List PartitionTableEntry → List Partition → Prop
  | nil {sector primary : Nat} : Chain d sector primary [] []
  | empty {sector primary : Nat} {e : PartitionTableEntry} {es : List PartitionTableEntry}
      {ps : List Partition} (he : e.isEmpty = true) (h : Chain d sector primary es ps) :
      Chain d sector primary (e :: es) ps
  | partition {sector primary : Nat} {e : PartitionTableEntry} {es : List PartitionTableEntry}
      {ps : List Partition} (he : e.isEmpty = false) (hx : e.isExtended = false)
      (h : Chain d sector primary es ps) :
      Chain d sector primary (e :: es) (e.partition sector :: ps)
  | extended {sector primary : Nat} {e : PartitionTableEntry} {es : List PartitionTableEntry}
      {below ps : List Partition} (he : e.isEmpty = false) (hx : e.isExtended = true)
      (hbelow : Chain d (nextTable sector primary e).1 (nextTable sector primary e).2
        (d.tableAt (nextTable sector primary e).1) below)
      (h : Chain d sector primary es ps) :
      Chain d sector primary (e :: es) (below ++ ps)

/-- The disk's chain of tables is finite and holds the partitions `ps`. -/
def Block.Holds (d : Block) (ps : List Partition) : Prop := Chain d 0 0 (d.tableAt 0) ps

/-- The calls that report `ps` when `k` partitions have been reported before. -/
def numbered : Nat → List Partition → List FoundPartition
  | _, [] => []
  | k, p :: ps => ⟨p.type, p.start, p.size, k + 1⟩ :: numbered (k + 1) ps

/-- The scan returns and has reported the partitions `ps`, in order and numbered from 1. -/
def Reports (d : Block) (ps : List Partition) : Prop :=
  ∃ n, ∀ fuel, n ≤ fuel →
    ∃ events, partitionScan d fuel = some events ∧ calls events = numbered 0 ps

/-! ## What the scan does -/

@[simp] theorem calls_append (a b : List ScanEvent) : calls (a ++ b) = calls a ++ calls b :=
  filterMap_append

@[simp] theorem calls_extended (sector : Nat) (es : List ScanEvent) :
    calls (.extended sector :: es) = calls es := rfl

@[simp] theorem calls_found (call : FoundPartition) (o : FoundOutcome) (es : List ScanEvent) :
    calls (.found call o :: es) = call :: calls es := rfl

theorem numbered_append (k : Nat) (ps qs : List Partition) :
    numbered k (ps ++ qs) = numbered k ps ++ numbered (k + ps.length) qs := by
  induction ps generalizing k with
  | nil => rfl
  | cons p ps ih =>
    rw [cons_append, numbered, numbered, ih, cons_append, length_cons]
    congr 3
    omega

theorem numbered_injective {k : Nat} {ps qs : List Partition} (h : numbered k ps = numbered k qs) :
    ps = qs := by
  induction ps generalizing k qs with
  | nil => cases qs with
    | nil => rfl
    | cons q qs => simp [numbered] at h
  | cons p ps ih => cases qs with
    | nil => simp [numbered] at h
    | cons q qs =>
      simp only [numbered, List.cons.injEq, FoundPartition.mk.injEq] at h
      obtain ⟨⟨ht, hs, hz, -⟩, hrest⟩ := h
      obtain ⟨pt, ps', pz⟩ := p
      obtain ⟨qt, qs', qz⟩ := q
      rw [ih hrest]
      exact congrArg (· :: qs) (by simp_all)

/-- A part of the scan returns, counts from `k` on and reports `ps`. -/
def Yields (r : Option (List ScanEvent × Nat)) (k : Nat) (ps : List Partition) : Prop :=
  ∃ events, r = some (events, k + ps.length) ∧ calls events = numbered k ps

/-- What a table adds to the report when `below e` is what its extended entry `e` adds. -/
def reported (below : PartitionTableEntry → List Partition) (sector : Nat)
    (e : PartitionTableEntry) : List Partition :=
  if e.isEmpty then [] else if e.isExtended then below e else [e.partition sector]

theorem parsePartitions_yields {read : Nat → Nat → Nat → Option (List ScanEvent × Nat)}
    {d : Block} {sector primary : Nat} {es : List PartitionTableEntry}
    {below : PartitionTableEntry → List Partition}
    (hread : ∀ e ∈ es, e.isEmpty = false → e.isExtended = true → ∀ k,
      Yields (read (nextTable sector primary e).1 (nextTable sector primary e).2 k) k (below e)) :
    ∀ k, Yields (parsePartitions read d sector primary es k) k
      (es.flatMap (reported below sector)) := by
  induction es with
  | nil => exact fun k => ⟨[], rfl, rfl⟩
  | cons e es ih =>
    intro k
    have ih := ih fun e he => hread e (mem_cons_of_mem _ he)
    rw [flatMap_cons, parsePartitions, reported]
    by_cases he : e.isEmpty = true
    · rw [if_pos he, if_pos he]
      exact ih k
    · rw [if_neg he, if_neg he]
      by_cases hx : e.isExtended = true
      · rw [if_pos hx, if_pos hx]
        obtain ⟨evs, hevs, hcalls⟩ := hread e mem_cons_self (by simpa using he) hx k
        obtain ⟨rest, hrest, hcalls'⟩ := ih (k + (below e).length)
        refine ⟨.extended sector :: (evs ++ rest), ?_, ?_⟩
        · simp only [hevs, hrest, Option.bind_eq_bind, Option.bind_some, length_append,
            Nat.add_assoc]
        · rw [calls_extended, calls_append, hcalls, hcalls', numbered_append]
      · rw [if_neg hx, if_neg hx]
        obtain ⟨rest, hrest, hcalls⟩ := ih (k + 1)
        have hlen : k + 1 + (es.flatMap (reported below sector)).length =
            k + (1 + (es.flatMap (reported below sector)).length) := by omega
        let call : FoundPartition := ⟨e.type, (e.offset + sector) % 2 ^ 32, e.size, k + 1⟩
        refine ⟨.found call (foundPartition d call) :: rest, ?_, ?_⟩
        · simp only [hrest, hlen, call, Option.bind_eq_bind, Option.bind_some,
            length_append, length_singleton]
        · rw [calls_found, hcalls]
          rfl

theorem parsePartitions_none {read : Nat → Nat → Nat → Option (List ScanEvent × Nat)}
    {d : Block} {sector primary : Nat} {es : List PartitionTableEntry} {e : PartitionTableEntry}
    (hmem : e ∈ es) (he : e.isEmpty = false) (hx : e.isExtended = true)
    (hnone : ∀ k, read (nextTable sector primary e).1 (nextTable sector primary e).2 k = none) :
    ∀ k, parsePartitions read d sector primary es k = none := by
  induction es with
  | nil => cases hmem
  | cons x es ih =>
    intro k
    rw [parsePartitions]
    rcases mem_cons.mp hmem with rfl | hmem
    · simp [he, hx, hnone]
    · have ih := ih hmem
      split
      · exact ih k
      · split
        · cases hr : read (nextTable sector primary x).1 (nextTable sector primary x).2 k with
          | none => simp [hr]
          | some r => simp [hr, ih]
        · simp [ih]

/-- The extended entries of the primary table that are not empty. -/
def Block.extendedEntries (d : Block) : List PartitionTableEntry :=
  (d.tableAt 0).filter fun e => !e.isEmpty && e.isExtended

theorem Block.mem_extendedEntries {d : Block} {e : PartitionTableEntry} :
    e ∈ d.extendedEntries ↔ e ∈ d.tableAt 0 ∧ e.isEmpty = false ∧ e.isExtended = true := by
  simp [extendedEntries, mem_filter]

theorem readPartitionTable_pastEnd {d : Block} {fuel sector primary k : Nat}
    (h : d.size ≤ sector) : Yields (readPartitionTable d (fuel + 1) sector primary k) k [] :=
  ⟨[.pastEnd sector], by rw [readPartitionTable, if_pos h]; rfl, rfl⟩

theorem readPartitionTable_eq {d : Block} {fuel sector primary k : Nat} (h : sector < d.size)
    (hsig : signature (d.data 0) = 0xaa55) :
    readPartitionTable d (fuel + 1) sector primary k =
      parsePartitions (readPartitionTable d fuel) d sector primary (d.tableAt 0) k := by
  have htable : d.tableAt 0 = partitions (d.data 0) := if_pos ⟨by omega, hsig⟩
  rw [readPartitionTable, if_neg (by omega), htable]
  exact if_neg (fun hne => hne hsig)

theorem Block.signature_of_mem {d : Block} {e : PartitionTableEntry} (h : e ∈ d.tableAt 0) :
    signature (d.data 0) = 0xaa55 := by
  unfold tableAt at h
  split at h
  · next hc => exact hc.2
  · cases h

/-- An extended entry `e` on the device and an entry `e'` whose second-level table would be on
the device too: the scan never returns. -/
theorem readPartitionTable_never {d : Block} {e e' : PartitionTableEntry}
    (he : e ∈ d.extendedEntries) (hlt : e.offset < d.size) (he' : e' ∈ d.extendedEntries)
    (hlt' : (e'.offset + e.offset) % 2 ^ 32 < d.size) (fuel : Nat) :
    ∀ k, readPartitionTable d fuel 0 0 k = none := by
  obtain ⟨hmem, hemp, hext⟩ := mem_extendedEntries.mp he
  obtain ⟨hmem', hemp', hext'⟩ := mem_extendedEntries.mp he'
  have hsig := signature_of_mem hmem
  -- both tables below are read as sector 0, and each of them leads to one of the two again
  have hloop : ∀ fuel, (∀ k, readPartitionTable d fuel e.offset e.offset k = none) ∧
      ∀ k, readPartitionTable d fuel ((e'.offset + e.offset) % 2 ^ 32) e.offset k = none := by
    intro fuel
    induction fuel with
    | zero => exact ⟨fun _ => rfl, fun _ => rfl⟩
    | succ fuel ih =>
      have hround : ∀ {a}, a < d.size → ∀ k, readPartitionTable d (fuel + 1) a e.offset k = none := by
        intro a ha k
        rw [readPartitionTable_eq ha hsig]
        by_cases h0 : a = 0
        · apply parsePartitions_none hmem hemp hext
          intro k
          rw [nextTable, if_pos h0]
          exact ih.1 k
        · apply parsePartitions_none hmem' hemp' hext'
          intro k
          rw [nextTable, if_neg h0]
          exact ih.2 k
      exact ⟨hround hlt, hround hlt'⟩
  cases fuel with
  | zero => exact fun _ => rfl
  | succ fuel =>
    intro k
    rw [readPartitionTable_eq (by omega) hsig]
    exact parsePartitions_none hmem hemp hext (hloop fuel).1 k

/-- No two extended entries keep the scan on the device at its second level. -/
def Block.Shallow (d : Block) : Prop :=
  ∀ e ∈ d.extendedEntries, e.offset < d.size →
    ∀ e' ∈ d.extendedEntries, d.size ≤ (e'.offset + e.offset) % 2 ^ 32

/-- What the scan finds below an extended entry: on the device, the primary partitions once more, moved
by the entry's offset. -/
def Block.moved (d : Block) (e : PartitionTableEntry) : List Partition :=
  if e.offset < d.size then (d.tableAt 0).flatMap (reported (fun _ => []) e.offset) else []

theorem readPartitionTable_shallow {d : Block} (h : d.Shallow) (fuel k : Nat) :
    Yields (readPartitionTable d (fuel + 3) 0 0 k) k ((d.tableAt 0).flatMap (reported d.moved 0)) := by
  by_cases hd : 0 < d.size ∧ signature (d.data 0) = 0xaa55
  · rw [readPartitionTable_eq hd.1 hd.2]
    apply parsePartitions_yields
    intro e hmem hemp hext k
    have he := mem_extendedEntries.mpr ⟨hmem, hemp, hext⟩
    show Yields (readPartitionTable d (fuel + 2) e.offset e.offset k) k (d.moved e)
    unfold moved
    split
    · next hlt =>
      -- offset 0 would lead the scan back to sector 0
      have hne : e.offset ≠ 0 := by
        intro h0
        have := h e he hlt e he
        rw [h0] at this
        omega
      rw [readPartitionTable_eq hlt hd.2]
      apply parsePartitions_yields
      intro e' hmem' hemp' hext' k
      rw [nextTable, if_neg hne]
      exact readPartitionTable_pastEnd
        (h e he hlt e' (mem_extendedEntries.mpr ⟨hmem', hemp', hext'⟩))
    · next hge => exact readPartitionTable_pastEnd (by omega)
  · have htable : d.tableAt 0 = [] := if_neg hd
    rw [htable, readPartitionTable]
    split
    · exact ⟨_, rfl, rfl⟩
    · next hlt =>
      have hsig : signature (d.data 0) ≠ 0xaa55 := fun hs => hd ⟨by omega, hs⟩
      exact ⟨_, if_pos hsig, rfl⟩

theorem partitionScan_yields {d : Block} {fuel : Nat} {ps : List Partition}
    (h : Yields (readPartitionTable d fuel 0 0 0) 0 ps) :
    ∃ events, partitionScan d fuel = some events ∧ calls events = numbered 0 ps := by
  obtain ⟨events, hread, hcalls⟩ := h
  rw [partitionScan, hread]
  refine ⟨_, rfl, ?_⟩
  split
  · rw [calls_append, hcalls]
    exact append_nil _
  · exact hcalls

theorem reports_shallow {d : Block} (h : d.Shallow) {ps : List Partition} :
    Reports d ps ↔ ps = (d.tableAt 0).flatMap (reported d.moved 0) := by
  have hscan : ∀ fuel, 3 ≤ fuel → ∃ events, partitionScan d fuel = some events ∧
      calls events = numbered 0 ((d.tableAt 0).flatMap (reported d.moved 0)) := by
    intro fuel hfuel
    have hy := readPartitionTable_shallow h (fuel - 3) 0
    rw [Nat.sub_add_cancel hfuel] at hy
    exact partitionScan_yields hy
  constructor
  · rintro ⟨n, hn⟩
    obtain ⟨events, heq, hcalls⟩ := hn (max n 3) (by omega)
    obtain ⟨events', heq', hcalls'⟩ := hscan (max n 3) (by omega)
    rw [heq] at heq'
    cases heq'
    exact numbered_injective (hcalls.symm.trans hcalls')
  · rintro rfl
    exact ⟨3, hscan⟩

theorem partitionScan_never {d : Block} (h : ¬ d.Shallow) (fuel : Nat) :
    partitionScan d fuel = none := by
  simp only [Block.Shallow, not_forall, Nat.not_le] at h
  obtain ⟨e, he, hlt, e', he', hlt'⟩ := h
  rw [partitionScan, readPartitionTable_never he hlt he' hlt' fuel 0]

/-! ## The scan and the chain -/

theorem Chain.unique {d : Block} {sector primary : Nat} {es : List PartitionTableEntry}
    {ps qs : List Partition} (h : Chain d sector primary es ps) (h' : Chain d sector primary es qs) :
    ps = qs := by
  induction h generalizing qs with
  | nil =>
    cases h'
    rfl
  | empty he h ih =>
    cases h' with
    | empty _ h' => exact ih h'
    | partition he' _ _ | extended he' _ _ _ => exact absurd (he.symm.trans he') nofun
  | partition he hx h ih =>
    cases h' with
    | empty he' _ => exact absurd (he.symm.trans he') nofun
    | partition _ _ h' => rw [ih h']
    | extended _ hx' _ _ => exact absurd (hx.symm.trans hx') nofun
  | extended he hx hb h ihb ih =>
    cases h' with
    | empty he' _ => exact absurd (he.symm.trans he') nofun
    | partition _ hx' _ => exact absurd (hx.symm.trans hx') nofun
    | extended _ _ hb' h' => rw [ihb hb', ih h']

/-- The partitions that the table of an extended entry holds, with all tables below it. -/
def Block.Below (d : Block) (e : PartitionTableEntry) (ps : List Partition) : Prop :=
  Chain d e.offset e.offset (d.tableAt e.offset) ps

/-- The chain from the primary table is that table with the tables of its extended entries. -/
theorem Chain.primary {d : Block} {es : List PartitionTableEntry} {ps : List Partition}
    (h : Chain d 0 0 es ps) : ∃ below : PartitionTableEntry → List Partition,
      (∀ e ∈ es, e.isEmpty = false → e.isExtended = true → d.Below e (below e)) ∧
        ps = es.flatMap (reported below 0) := by
  classical
  induction es generalizing ps with
  | nil =>
    cases h
    exact ⟨fun _ => [], nofun, rfl⟩
  | cons e es ih =>
    cases h with
    | empty he h =>
      obtain ⟨below, hb, rfl⟩ := ih h
      refine ⟨below, fun x hx hxe => ?_, by simp [reported, he]⟩
      rcases mem_cons.mp hx with rfl | hx
      · exact absurd (he.symm.trans hxe) nofun
      · exact hb x hx hxe
    | partition he hx h =>
      obtain ⟨below, hb, rfl⟩ := ih h
      refine ⟨below, fun x hmem hxe hxx => ?_, by simp [reported, he, hx]⟩
      rcases mem_cons.mp hmem with rfl | hmem
      · exact absurd (hx.symm.trans hxx) nofun
      · exact hb x hmem hxe hxx
    | @extended _ _ _ _ bs _ he hx hbs h =>
      obtain ⟨below, hb, rfl⟩ := ih h
      refine ⟨Function.update below e bs, fun x hmem hxe hxx => ?_, ?_⟩
      · by_cases hxe' : x = e
        · subst hxe'
          rw [Function.update_self]
          exact hbs
        · rw [Function.update_of_ne hxe']
          exact hb x ((mem_cons.mp hmem).resolve_left hxe') hxe hxx
      · -- an entry that occurs twice has one table
        have hsame : ∀ x ∈ es, reported below 0 x = reported (Function.update below e bs) 0 x := by
          intro x hmem
          by_cases hxe' : x = e
          · subst hxe'
            simp [reported, he, hx, (hb x hmem he hx).unique hbs]
          · simp only [reported, Function.update_of_ne hxe']
        rw [flatMap_cons, reported, he, hx, Function.update_self]
        exact congrArg (bs ++ ·) (flatMap_congr hsame)

/-- **When a scan finds what is on the disk.** On a disk whose chain of tables is finite let `below e`
be what the table of the extended entry `e` of sector 0 holds. The scan returns and reports the
partitions of the chain exactly when no two extended entries keep it on the device and the tables of
the extended entries hold, one after another, the primary partitions moved by the offsets of those
entries that are on the device. So it does on every disk without an extended partition there. -/
theorem scan_follows_chain_iff (d : Block) (ps : List Partition) (h : d.Holds ps) :
    ∃ below : PartitionTableEntry → List Partition,
      (∀ e ∈ d.extendedEntries, d.Below e (below e)) ∧
      (Reports d ps ↔ d.Shallow ∧
        (d.tableAt 0).flatMap (reported below 0) = (d.tableAt 0).flatMap (reported d.moved 0)) ∧
      ((∀ e ∈ d.extendedEntries, d.size ≤ e.offset) → Reports d ps) := by
  obtain ⟨below, hb, rfl⟩ := Chain.primary h
  have hbelow : ∀ e ∈ d.extendedEntries, d.Below e (below e) := by
    intro e he
    obtain ⟨hmem, hemp, hx⟩ := mem_extendedEntries.mp he
    exact hb e hmem hemp hx
  refine ⟨below, hbelow, ?_⟩
  generalize hps : (d.tableAt 0).flatMap (reported below 0) = ps
  have hiff : Reports d ps ↔ d.Shallow ∧ ps = (d.tableAt 0).flatMap (reported d.moved 0) := by
    by_cases hs : d.Shallow
    · rw [reports_shallow hs, and_iff_right hs]
    · refine ⟨fun ⟨n, hn⟩ => ?_, fun hc => absurd hc.1 hs⟩
      obtain ⟨events, heq, -⟩ := hn n (Nat.le_refl n)
      rw [partitionScan_never hs] at heq
      cases heq
  refine ⟨hiff, fun hext => hiff.mpr ⟨fun e he hlt => absurd (hext e he) (by omega), ?_⟩⟩
  rw [← hps]
  refine flatMap_congr fun e hmem => ?_
  unfold reported
  split
  · rfl
  · next hemp =>
    split
    · next hx =>
      -- there is no table past the end of the device
      have he := mem_extendedEntries.mpr ⟨hmem, eq_false_of_ne_true hemp, hx⟩
      have htable : d.tableAt e.offset = [] := if_neg fun hc => absurd (hext e he) (by omega)
      have hnone : Chain d e.offset e.offset [] (below e) := htable ▸ hbelow e he
      rw [hnone.unique .nil]
      exact (if_neg (Nat.not_lt.mpr (hext e he))).symm
    · rfl

/-- A sector with the table of the given types, offsets and sizes. -/
def tableSector (es : List PartitionTableEntry) : Mem := fun o =>
  if o = 510 then 0x55
  else if o = 511 then 0xaa
  else if o < 446 then 0
  else
    match es[(o - 446) / 16]? with
    | none => 0
    | some e =>
      let i := (o - 446) % 16
      if i = 4 then e.type
      else if 8 ≤ i ∧ i < 12 then UInt8.ofNat (e.offset / 256 ^ (i - 8))
      else if 12 ≤ i then UInt8.ofNat (e.size / 256 ^ (i - 12))
      else 0

/-- The sectors of a disk with a file system partition of one sector and an extended partition
from sector 2 on, which holds a swap partition of one sector. -/
def extendedSectors (s : Nat) : Mem :=
  if s = 0 then tableSector [⟨0x21, 1, 1⟩, ⟨0x05, 2, 2⟩]
  else if s = 2 then tableSector [⟨0x23, 1, 1⟩]
  else fun _ => 0

def extendedDisk (size : Nat) : Block := ⟨size, extendedSectors⟩

theorem extendedDisk_holds {size : Nat} (h : 2 < size) :
    (extendedDisk size).Holds [⟨0x21, 1, 1⟩, ⟨0x23, 3, 1⟩] := by
  have h₀ : (extendedDisk size).tableAt 0 = [⟨0x21, 1, 1⟩, ⟨0x05, 2, 2⟩, ⟨0, 0, 0⟩, ⟨0, 0, 0⟩] := by
    have hsig : signature (extendedSectors 0) = 0xaa55 := by decide +kernel
    have htable : partitions (extendedSectors 0) =
        [⟨0x21, 1, 1⟩, ⟨0x05, 2, 2⟩, ⟨0, 0, 0⟩, ⟨0, 0, 0⟩] := by decide +kernel
    exact (if_pos ⟨by show 0 < size; omega, hsig⟩).trans htable
  have h₂ : (extendedDisk size).tableAt 2 = [⟨0x23, 1, 1⟩, ⟨0, 0, 0⟩, ⟨0, 0, 0⟩, ⟨0, 0, 0⟩] := by
    have hsig : signature (extendedSectors 2) = 0xaa55 := by decide +kernel
    have htable : partitions (extendedSectors 2) =
        [⟨0x23, 1, 1⟩, ⟨0, 0, 0⟩, ⟨0, 0, 0⟩, ⟨0, 0, 0⟩] := by decide +kernel
    exact (if_pos ⟨h, hsig⟩).trans htable
  have hbelow : Chain (extendedDisk size) 2 2 ((extendedDisk size).tableAt 2) [⟨0x23, 3, 1⟩] := by
    rw [h₂]
    exact .partition rfl rfl (.empty rfl (.empty rfl (.empty rfl .nil)))
  rw [Block.Holds, h₀]
  exact .partition rfl rfl
    (@Chain.extended _ 0 0 _ _ [⟨0x23, 3, 1⟩] [] rfl rfl hbelow (.empty rfl (.empty rfl .nil)))

/-- On a disk of four sectors the scan reports the file system partition a second time, at
sector 3, in place of the swap partition there. On a disk of eight it does not return. -/
theorem scan_repeats_primary :
    (extendedDisk 4).Holds [⟨0x21, 1, 1⟩, ⟨0x23, 3, 1⟩] ∧
      (partitionScan (extendedDisk 4) 3).map calls =
        some [⟨0x21, 1, 1, 1⟩, ⟨0x21, 3, 1, 2⟩] ∧
      (extendedDisk 8).Holds [⟨0x21, 1, 1⟩, ⟨0x23, 3, 1⟩] ∧
      (∀ fuel, partitionScan (extendedDisk 8) fuel = none) := by
  refine ⟨extendedDisk_holds (by decide), by decide +kernel, extendedDisk_holds (by decide), ?_⟩
  apply partitionScan_never
  intro h
  have := h ⟨0x05, 2, 2⟩ (by decide +kernel) (by decide) ⟨0x05, 2, 2⟩ (by decide +kernel)
  exact absurd this (by decide)

/-- On a disk of two sectors the extended partition lies past the end, and the scan is right. -/
theorem scan_follows_chain_iff_primary :
    (Block.mk 2 extendedSectors).Holds [⟨0x21, 1, 1⟩] ∧
      Reports (Block.mk 2 extendedSectors) [⟨0x21, 1, 1⟩] := by
  have htable : (mk 2 extendedSectors).tableAt 0 =
      [⟨0x21, 1, 1⟩, ⟨0x05, 2, 2⟩, ⟨0, 0, 0⟩, ⟨0, 0, 0⟩] := by decide +kernel
  have hbelow : Chain (mk 2 extendedSectors) 2 2
      ((mk 2 extendedSectors).tableAt 2) [] := .nil
  have hholds : (mk 2 extendedSectors).Holds [⟨0x21, 1, 1⟩] := by
    rw [Block.Holds, htable]
    exact .partition rfl rfl
      (@Chain.extended _ 0 0 _ _ [] [] rfl rfl hbelow (.empty rfl (.empty rfl .nil)))
  obtain ⟨below, -, -, hreports⟩ := scan_follows_chain_iff _ _ hholds
  exact ⟨hholds, hreports (by decide +kernel)⟩

end Pintos
