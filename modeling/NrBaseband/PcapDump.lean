import NrBaseband.Fronthaul
import NrBaseband.Foundation.Records

/-!
# The packet dump

`write_pcap_dump` writes a global header and, for each packet, a header with its length and its raw
bytes. `pcap_dump_reads` is about reading a dump: it has one reading, which gives the packets back.
-/

namespace NrBaseband

open Foundation

variable {R : Type}

/-- `gh`. -/
def gh : List UInt8 :=
  [0xd4, 0xc3, 0xb2, 0xa1, 0x02, 0x00, 0x04, 0x00, 0, 0, 0, 0,
   0, 0, 0, 0, 0xff, 0xff, 0x00, 0x00, 0x01, 0x00, 0x00, 0x00]

/-- `ph`, for the length of a packet. -/
def ph (len : UInt32) : List UInt8 :=
  let b0 := (len &&& 0xff).toUInt8
  let b1 := ((len >>> 8) &&& 0xff).toUInt8
  let b2 := ((len >>> 16) &&& 0xff).toUInt8
  let b3 := ((len >>> 24) &&& 0xff).toUInt8
  [0, 0, 0, 0, 0, 0, 0, 0, b0, b1, b2, b3, b0, b1, b2, b3]

/-- The body of the loop of `write_pcap_dump`, on the bytes of the file. -/
def writePacket (f : List UInt8) (p : FhPacket R) : List UInt8 :=
  let f := f ++ ph (UInt32.ofNat p.raw.length)
  if p.raw.isEmpty then f else f ++ p.raw

/-- `write_pcap_dump`: the bytes of the file, where it can be opened. -/
def writePcapDump (good : Bool) (pkts : List (FhPacket R)) : Checked (List UInt8) := do
  require (good = true) "cannot open pcap dump path"
  return pkts.foldl writePacket gh

/-! ## Reading -/

/-- The length of a packet in the dump, as its header says. -/
def inclLen (header : List UInt8) : Nat := littleEndian ((header.drop 8).take 4)

/-- The original length of a packet, as its header says. -/
def origLen (header : List UInt8) : Nat := littleEndian ((header.drop 12).take 4)

/-- The format of the records of a dump. -/
def pcapFormat : RecordFormat UInt8 where
  width := 16
  width_pos := by decide
  announced := inclLen

/-- The header of a packet says its length twice. -/
theorem ph_lengths (len : UInt32) : inclLen (ph len) = len.toNat ∧ origLen (ph len) = len.toNat :=
  ⟨little_endian_word len, little_endian_word len⟩

/-- The record of a packet whose length fits. -/
def pcapRecord (p : FhPacket R) (hsize : p.raw.length < 2 ^ 32) : Record pcapFormat where
  header := ph (UInt32.ofNat p.raw.length)
  body := p.raw
  header_length := rfl
  body_length := by
    show p.raw.length = inclLen (ph (UInt32.ofNat p.raw.length))
    rw [(ph_lengths _).1, UInt32.toNat_ofNat_of_lt' hsize]

/-- A step of the loop appends the record of its packet. -/
theorem write_packet_eq (f : List UInt8) (p : FhPacket R) (hsize : p.raw.length < 2 ^ 32) :
    writePacket f p = f ++ (pcapRecord p hsize).symbols := by
  show (if p.raw.isEmpty then f ++ ph (UInt32.ofNat p.raw.length)
    else f ++ ph (UInt32.ofNat p.raw.length) ++ p.raw) =
      f ++ (ph (UInt32.ofNat p.raw.length) ++ p.raw)
  split
  case isTrue hempty => rw [List.isEmpty_iff.mp hempty, List.append_nil]
  case isFalse => exact List.append_assoc ..

/-- The loop appends the records of its packets. -/
theorem write_packets_eq (f : List UInt8) {pkts : List (FhPacket R)}
    (hsize : ∀ p ∈ pkts, p.raw.length < 2 ^ 32) : ∃ records : List (Record pcapFormat),
      pkts.foldl writePacket f = f ++ records.flatMap Record.symbols ∧
      records.map Record.body = pkts.map FhPacket.raw ∧
      ∀ record ∈ records, origLen record.header = inclLen record.header := by
  induction pkts generalizing f with
  | nil =>
      refine ⟨[], (List.append_nil f).symm, rfl, fun record h => ?_⟩
      exact absurd h List.not_mem_nil
  | cons p pkts ih =>
      obtain ⟨hp, hrest⟩ := List.forall_mem_cons.mp hsize
      obtain ⟨records, hrun, hbodies, hlengths⟩ := ih (writePacket f p) hrest
      refine ⟨pcapRecord p hp :: records, ?_, ?_, List.forall_mem_cons.mpr ⟨?_, hlengths⟩⟩
      · rw [List.foldl_cons, hrun, write_packet_eq f p hp, List.flatMap_cons, List.append_assoc]
      · rw [List.map_cons, List.map_cons, hbodies]
        rfl
      · exact (ph_lengths _).2.trans (ph_lengths _).1.symm

/-- A dump of packets whose lengths fit reads as these packets, up to its end. -/
theorem pcap_dump_reads (pkts : List (FhPacket R))
    (hsize : ∀ p ∈ pkts, p.raw.length < 2 ^ 32) :
    ∃ file records, writePcapDump true pkts = .ok file ∧ file.take 24 = gh ∧
      readRecords pcapFormat (file.drop 24) = some records ∧
      records.map Record.body = pkts.map FhPacket.raw ∧
      ∀ record ∈ records, origLen record.header = inclLen record.header := by
  obtain ⟨records, hrun, hbodies, hlengths⟩ := write_packets_eq gh hsize
  have hlength : gh.length = 24 := rfl
  refine ⟨gh ++ records.flatMap Record.symbols, records, ?_, List.take_left' hlength, ?_, hbodies,
    hlengths⟩
  · rw [writePcapDump, require_of rfl, Checked.ok_bind, hrun, Checked.pure_eq_ok]
  · exact read_records_iff.mpr (List.drop_left' hlength)

/-- A packet of three bytes and an empty one. -/
theorem pcap_dump_reads_two :
    ∃ file records,
      writePcapDump true [(⟨{}, [], [1, 2, 3]⟩ : FhPacket Int), ⟨{}, [], []⟩] = .ok file ∧
      file.take 24 = gh ∧ readRecords pcapFormat (file.drop 24) = some records ∧
      records.map Record.body = [[1, 2, 3], []] ∧
      ∀ record ∈ records, origLen record.header = inclLen record.header :=
  pcap_dump_reads _ (by simp)

end NrBaseband
