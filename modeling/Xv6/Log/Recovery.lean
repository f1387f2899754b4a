import Xv6.Lib.Except
import Xv6.Log.Model

/-!
# Crash recovery

A transaction changes cached blocks and notes each of them with
`log_write`; `commit` then writes the log copies, the header, the home
blocks and the empty header, in that order.  The machine may stop after any
prefix of these writes, and after any prefix of the writes of a recovery.

Three predicates describe every disk that this can leave behind.  `Empty h`
is a disk with an empty header and the home blocks of `h`.  `Pending tx
post` is a disk whose header and log blocks hold the transaction `tx`, and
on which installing `tx` gives the home blocks of `post`.  A commit goes
from `Empty pre` through `Pending` to `Empty post`, and the write that
leaves the first of them is the first `write_head`.  Recovery keeps `Empty`,
and takes `Pending` to `Empty post`, however often it is cut short.
-/

namespace Xv6

open Lib Function List Log Prod

/-! ## Transactions, crashes and recoveries -/

/-- Change a cached block and log it, as the callers of `log_write` do. -/
def Log.update (s : Log × Dev) (u : UInt32 × Block) : Except Panic (Log × Dev) := do
  let d := s.2.bset u.1.toNat u.2
  let log ← logWrite s.1 u.1.toNat
  return (log, d)

/-- A transaction: any blocks with any contents, logged one by one. -/
def Log.transaction (log : Log) (d : Dev) (us : List (UInt32 × Block)) :
    Except Panic (Log × Dev) :=
  us.foldlM Log.update (log, d)

/-- The contents that the updates of a transaction give to the blocks. -/
def Log.updated (us : List (UInt32 × Block)) : List (Nat × Block) :=
  us.map fun u => (u.1.toNat, u.2)

/-- The disk writes that `commit` issues, in order. -/
def commitWrites (log : Log) (d : Dev) : List (Nat × Block) :=
  (commit log { d with issued := [] }).2.issued

/-- The disk after a crash that cuts `commit` off after `k` writes. -/
def crashed (log : Log) (d : Dev) (k : Nat) : Nat → Block :=
  applyWrites d.disk ((commitWrites log d).take k)

/-- The first `write_head` of the commit is among its first `k` writes. -/
def HeadReached (log : Log) (d : Dev) (k : Nat) : Prop :=
  log.lh ≠ [] ∧ (writeLog log { d with issued := [] }).issued.length < k

instance (log : Log) (d : Dev) (k : Nat) : Decidable (HeadReached log d k) :=
  inferInstanceAs (Decidable (_ ∧ _))

/-- The disk writes that `recover_from_log` issues after a boot. -/
def recoverWrites (log : Log) (disk : Nat → Block) : List (Nat × Block) :=
  (recoverFromLog log (Dev.boot disk)).2.issued

/-- The disk after a recovery that is cut off after `k` writes. -/
def recoverCut (log : Log) (disk : Nat → Block) (k : Nat) : Nat → Block :=
  applyWrites disk ((recoverWrites log disk).take k)

/-- The disk after recoveries cut off at `cuts` and a complete one. -/
def recovered (log : Log) (disk : Nat → Block) (cuts : List Nat) : Nat → Block :=
  (recoverFromLog log (Dev.boot (cuts.foldl (recoverCut log) disk))).2.disk

/-! ## The log of a transaction -/

/-- What `log_write` keeps true of the header: its entries are distinct
home blocks, and they and their copies fit. -/
structure Log.Fits (log : Log) : Prop where
  nodup : log.lh.Nodup
  short : log.lh.length ≤ LOGSIZE
  room : ∀ i < log.lh.length, i + 1 < log.size
  home : ∀ b ∈ log.lh, log.Home b
  int : ∀ b ∈ log.lh, b < 2 ^ 32

variable {b : Nat}

theorem logWrite_eq_ok {log log' : Log} (h : logWrite log b = .ok log') :
    log.lh.length < LOGSIZE ∧ log.lh.length + 1 < log.size ∧ 1 ≤ log.outstanding ∧
      log' = { log with lh := if b ∈ log.lh then log.lh else log.lh ++ [b] } := by
  unfold logWrite at h
  split at h
  · cases h
  rename_i hsize
  split at h
  · cases h
  rename_i hout
  refine ⟨by omega, by omega, by omega, ?_⟩
  split at h
  · rename_i hmem
    simpa [hmem] using (Except.ok.inj h).symm
  · rename_i hmem
    simpa [hmem] using (Except.ok.inj h).symm

/-- `log_write` takes the blocks `bs`, one after the other. -/
def LogTakes (log : Log) (bs : List Nat) : Prop := ∃ log', bs.foldlM logWrite log = .ok log'

section LogTakes

variable {log : Log} (hopen : 1 ≤ log.outstanding)

include hopen

theorem logTakes_cons (b : Nat) (bs : List Nat) : LogTakes log (b :: bs) ↔
    log.lh.length < LOGSIZE ∧ log.lh.length + 1 < log.size ∧
      LogTakes { log with lh := if b ∈ log.lh then log.lh else log.lh ++ [b] } bs := by
  constructor
  · rintro ⟨log', h⟩
    obtain ⟨log1, hb, hrest⟩ := bind_eq_ok.1 h
    obtain ⟨hlog, hdisk, -, rfl⟩ := logWrite_eq_ok hb
    exact ⟨hlog, hdisk, log', hrest⟩
  · rintro ⟨hlog, hdisk, log', h⟩
    refine ⟨log', bind_eq_ok.2 ⟨_, ?_, h⟩⟩
    rw [logWrite, if_neg (by omega), if_neg (by omega)]
    split <;> rfl

/-- The log takes some blocks just if there is room for those before the
last: `log_write` looks for room before it looks for the block. -/
theorem logTakes_iff (bs : List Nat) (hnodup : log.lh.Nodup) : LogTakes log bs ↔ bs = [] ∨
    (log.lh ++ bs.dropLast).toFinset.card < LOGSIZE ∧
      (log.lh ++ bs.dropLast).toFinset.card + 1 < log.size := by
  induction bs generalizing log with
  | nil => exact iff_of_true ⟨log, rfl⟩ (.inl rfl)
  | cons b bs ih =>
    have hlen := toFinset_card_of_nodup hnodup
    rw [logTakes_cons hopen,
      @ih { log with lh := if b ∈ log.lh then log.lh else log.lh ++ [b] } hopen (by grind)]
    cases bs with
    | nil => simp [hlen]
    | cons c bs =>
      have hset : ((if b ∈ log.lh then log.lh else log.lh ++ [b]) ++ (c :: bs).dropLast).toFinset =
          (log.lh ++ (b :: c :: bs).dropLast).toFinset := by
        ext x
        simp only [mem_toFinset, mem_append, dropLast_cons_cons, mem_cons]
        grind
      have hle : log.lh.toFinset.card ≤ (log.lh ++ (b :: c :: bs).dropLast).toFinset.card := by
        rw [toFinset_append]
        exact Finset.card_le_card Finset.subset_union_left
      simp only [hset, reduceCtorEq, false_or]
      omega

end LogTakes

theorem Log.Fits.logWrite {log log' : Log} {b : UInt32} (hfits : log.Fits)
    (hhome : log.Home b.toNat) (h : logWrite log b.toNat = .ok log') : log'.Fits := by
  obtain ⟨hshort, hroom, -, rfl⟩ := logWrite_eq_ok h
  by_cases hmem : b.toNat ∈ log.lh
  · simpa [hmem] using hfits
  simp only [hmem, if_false]
  refine ⟨?_, ?_, ?_, ?_, ?_⟩
  · have hnd := hfits.nodup
    simp only [nodup_append, hnd, nodup_singleton, true_and, mem_singleton]
    rintro a ha c rfl rfl
    exact hmem ha
  · simp only [length_append, length_singleton]
    omega
  · simp only [length_append, length_singleton]
    omega
  · intro c hc
    rcases mem_append.1 hc with hc | hc
    · exact hfits.home c hc
    · rwa [mem_singleton.1 hc]
  · intro c hc
    rcases mem_append.1 hc with hc | hc
    · exact hfits.int c hc
    rw [mem_singleton.1 hc]
    exact b.toNat_lt

/-- What a transaction leaves behind: the header names the updated blocks,
the cache holds their new contents and the disk has not been touched. -/
theorem Log.transaction_spec {us : List (UInt32 × Block)} {log log' : Log}
    {d d' : Dev} (hfits : log.Fits) (hhome : ∀ u ∈ us, log.Home u.1.toNat)
    (h : log.transaction d us = .ok (log', d')) :
    log'.Fits ∧ log' = { log with lh := log'.lh } ∧
      (∀ b, b ∈ log'.lh ↔ b ∈ log.lh ∨ b ∈ (updated us).map fst) ∧
      d' = { d with cache := applyWrites d.cache (updated us) } := by
  induction us generalizing log d with
  | nil =>
    simp only [transaction, foldlM_nil, pure_eq_ok] at h
    obtain ⟨rfl, rfl⟩ := h
    exact ⟨hfits, rfl, by simp [updated], rfl⟩
  | cons u us ih =>
    simp only [transaction, foldlM_cons, bind_eq_ok, update, pure_eq_ok] at h
    obtain ⟨s, ⟨log1, hlog1, rfl⟩, hrest⟩ := h
    have hfits1 := hfits.logWrite (hhome u mem_cons_self) hlog1
    obtain ⟨-, -, -, rfl⟩ := logWrite_eq_ok hlog1
    obtain ⟨hfits', hlog', hmem, hd'⟩ :=
      ih hfits1 (fun v hv => hhome v (mem_cons_of_mem _ hv)) hrest
    refine ⟨hfits', hlog', ?_, hd'⟩
    intro b
    rw [hmem b]
    by_cases hu : u.1.toNat ∈ log.lh
    · simp only [hu, if_true, updated, map_cons, mem_cons]
      constructor
      · rintro (hb | hb)
        · exact .inl hb
        · exact .inr (.inr hb)
      rintro (hb | rfl | hb)
      · exact .inl hb
      · exact .inl hu
      · exact .inr hb
    · simp only [hu, if_false, updated, map_cons, mem_cons, mem_append,
        not_mem_nil, or_false, or_assoc]

/-! ## The writes of a commit and of a recovery -/

/-- The writes of `write_log`. -/
def Log.copies (log : Log) (d : Dev) : List (Nat × Block) :=
  log.lh.zipIdx.map fun e => (log.slot e.2, d.cache e.1)

/-- The writes of `install_trans`. -/
def Log.installs (log : Log) (d : Dev) : List (Nat × Block) :=
  log.lh.zipIdx.map fun e => (e.1, d.cache (log.slot e.2))

/-- The logged blocks with their cached contents. -/
def Log.contents (log : Log) (d : Dev) : List (Nat × Block) :=
  log.lh.map fun b => (b, d.cache b)

section Writes

variable {log : Log} (d : Dev)

theorem Log.copies_fst : (log.copies d).map fst = (range log.lh.length).map log.slot := by
  apply ext_getElem (by simp [copies])
  intro i hi hi'
  simp [copies]

theorem Log.contents_fst : (log.contents d).map fst = log.lh := by simp [contents, comp_def]

/-- After `write_log` the copy of entry `i` holds its cached contents. -/
theorem Log.applyWrites_copies (s : Nat → Block) {i : Nat} (hi : i < log.lh.length) :
    applyWrites s (log.copies d) (log.slot i) = d.cache log.lh[i] := by
  apply applyWrites_of_mem
  · rw [copies_fst]
    apply Nodup.map _ nodup_range
    intro i j hij
    unfold slot at hij
    omega
  · apply mem_map.2
    exact ⟨(log.lh[i], i), mem_zipIdx_iff_getElem?.2 (by simp [hi]), rfl⟩

/-- When the log blocks are up to date, `install_trans` writes the
contents that the transaction gave to its blocks. -/
theorem Log.installs_eq {tx : List (Nat × Block)} (hlh : tx.map fst = log.lh)
    (hslots : ∀ i (hi : i < tx.length), d.cache (log.slot i) = tx[i].2) : log.installs d = tx := by
  have hlen : tx.length = log.lh.length := by rw [← hlh, length_map]
  apply ext_getElem (by simp [installs, hlen])
  intro i hi hi'
  simp only [installs, getElem_map, getElem_zipIdx, Nat.zero_add]
  rw [hslots i hi']
  simp [← hlh]

/-- `write_head` issues one write, of a block that holds the header. -/
theorem writeHead_spec (hshort : log.lh.length ≤ LOGSIZE) (hint : ∀ b ∈ log.lh, b < 2 ^ 32) :
    ∃ h : Block, decodeHead h = log.lh ∧ h.getLE 0 4 = log.lh.length ∧
      (writeHead log d).issued = d.issued ++ [(log.start, h)] ∧
      (writeHead log d).disk = update d.disk log.start h := by
  refine ⟨encodeHead log.lh (d.cache log.start), decodeHead_encodeHead _ hshort hint,
    encodeHead_count _ hshort, ?_, ?_⟩
  · simp [writeHead, Dev.bset, Dev.bwrite]
  · simp [writeHead, Dev.bset, Dev.bwrite]

/-- `write_head` of an empty header clears the count on the disk. -/
theorem writeHead_clear (hlh : log.lh = []) : ∃ h : Block, h.getLE 0 4 = 0 ∧
      (writeHead log d).issued = d.issued ++ [(log.start, h)] ∧
      (writeHead log d).disk = update d.disk log.start h := by
  obtain ⟨h, -, hcount, hrest⟩ := @writeHead_spec log d (by simp [hlh]) (by simp [hlh])
  exact ⟨h, by simpa [hlh] using hcount, hrest⟩

theorem writeHead_cache_slot (i : Nat) :
    (writeHead log d).cache (log.slot i) = d.cache (log.slot i) := by
  have hne : log.slot i ≠ log.start := by
    unfold slot
    omega
  simp [writeHead, Dev.bset, Dev.bwrite, update_of_ne hne]

end Writes

namespace Log.Fits

variable {log : Log} (hfits : log.Fits) (d : Dev)
include hfits

/-- A log block is never a home block of the transaction. -/
theorem slot_ne {i b : Nat} (hi : i < log.lh.length) (hb : b ∈ log.lh) : log.slot i ≠ b := by
  have hroom := hfits.room i hi
  have hhome := hfits.home b hb
  unfold Home at hhome
  unfold slot
  omega

theorem slot_ne_of_mem_zipIdx {e f : Nat × Nat} (he : e ∈ log.lh.zipIdx)
    (hf : f ∈ log.lh.zipIdx) : log.slot e.2 ≠ f.1 := by
  have hi : e.2 < log.lh.length := snd_lt_of_mem_zipIdx he
  have hb : f.1 ∈ log.lh := fst_mem_of_mem_zipIdx hf
  exact hfits.slot_ne hi hb

theorem writeLog_eq :
    writeLog log d =
      { disk := applyWrites d.disk (log.copies d)
        cache := applyWrites d.cache (log.copies d)
        issued := d.issued ++ log.copies d } := by
  unfold writeLog
  rw [Dev.copyBlocks_eq]
  · simp [copies, comp_def]
  intro p hp q hq
  obtain ⟨e, he, rfl⟩ := mem_map.1 hp
  obtain ⟨f, hf, rfl⟩ := mem_map.1 hq
  show log.slot e.2 ≠ f.1
  exact hfits.slot_ne_of_mem_zipIdx he hf

theorem installTrans_eq :
    installTrans log d =
      { disk := applyWrites d.disk (log.installs d)
        cache := applyWrites d.cache (log.installs d)
        issued := d.issued ++ log.installs d } := by
  unfold installTrans
  rw [Dev.copyBlocks_eq]
  · simp [installs, comp_def]
  intro p hp q hq
  obtain ⟨e, he, rfl⟩ := mem_map.1 hp
  obtain ⟨f, hf, rfl⟩ := mem_map.1 hq
  exact (hfits.slot_ne_of_mem_zipIdx hf he).symm

/-- The writes of a commit with something to commit. -/
theorem commitWrites_eq (hne : log.lh ≠ []) :
    ∃ h1 h0 : Block, decodeHead h1 = log.lh ∧ h0.getLE 0 4 = 0 ∧ commitWrites log d =
        log.copies d ++ (log.start, h1) :: (log.contents d ++ [(log.start, h0)]) := by
  have hpos : log.lh.length > 0 := length_pos_iff.2 hne
  obtain ⟨h1, hh1, -, hissued1, -⟩ :=
    writeHead_spec (writeLog log { d with issued := [] }) hfits.short hfits.int
  -- the device when `install_trans` starts
  obtain ⟨d', hd'⟩ : ∃ d', writeHead log (writeLog log { d with issued := [] }) = d' :=
    ⟨_, rfl⟩
  have hslots : ∀ i (hi : i < (log.contents d).length),
      d'.cache (log.slot i) = (log.contents d)[i].2 := by
    intro i hi
    have hi' : i < log.lh.length := by simpa [contents] using hi
    rw [← hd', writeHead_cache_slot, hfits.writeLog_eq]
    simpa [contents] using
      applyWrites_copies { d with issued := [] } d.cache hi'
  have hinst : log.installs d' = log.contents d :=
    installs_eq d' (contents_fst d) hslots
  obtain ⟨h0, hh0, hissued0, -⟩ :=
    @writeHead_clear { log with lh := [] } (installTrans log d') rfl
  refine ⟨h1, h0, hh1, hh0, ?_⟩
  have hcopies : (writeLog log { d with issued := [] }).issued = log.copies d := by
    rw [hfits.writeLog_eq]
    rfl
  simp only [commitWrites, commit, hpos, if_true, hd', hissued0]
  rw [hfits.installTrans_eq, hinst, ← hd', hissued1, hcopies]
  simp

end Log.Fits

/-- The writes of a recovery whose header fits the log. -/
theorem recoverWrites_eq {log : Log} {disk : Nat → Block} {tx : List (Nat × Block)}
    (hfits : Fits { log with lh := tx.map fst })
    (hhead : decodeHead (disk log.start) = tx.map fst)
    (hslots : ∀ i (hi : i < tx.length), disk (log.slot i) = tx[i].2) :
    ∃ h0 : Block, h0.getLE 0 4 = 0 ∧
      recoverWrites log disk = tx ++ [(log.start, h0)] ∧
      (recoverFromLog log (Dev.boot disk)).2.disk =
        applyWrites disk (recoverWrites log disk) := by
  have hread : readHead log (Dev.boot disk) = { log with lh := tx.map fst } := by
    rw [readHead, Dev.boot, hhead]
  have hinst : installs { log with lh := tx.map fst } (Dev.boot disk) = tx :=
    installs_eq (Dev.boot disk) rfl hslots
  obtain ⟨h0, hh0, hissued0, hdisk0⟩ :=
    @writeHead_clear { log with lh := [] }
      (installTrans { log with lh := tx.map fst } (Dev.boot disk)) rfl
  have hwrites : recoverWrites log disk = tx ++ [(log.start, h0)] := by
    simp only [recoverWrites, recoverFromLog, hread, hissued0]
    rw [hfits.installTrans_eq, hinst]
    rfl
  refine ⟨h0, hh0, hwrites, ?_⟩
  rw [hwrites, applyWrites_concat]
  simp only [recoverFromLog, hread, hdisk0]
  rw [hfits.installTrans_eq, hinst]
  rfl

/-! ## The disks that a crash can leave behind -/

/-- The header is empty and the home blocks are those of `home`. -/
structure Log.Empty (log : Log) (home disk : Nat → Block) : Prop where
  head : decodeHead (disk log.start) = []
  eq_home : ∀ b, log.Home b → disk b = home b

/-- The header and the log blocks hold `tx`, and installing it gives the
home blocks of `post`. -/
structure Log.Pending (log : Log) (tx : List (Nat × Block)) (post disk : Nat → Block) :
    Prop where
  head : decodeHead (disk log.start) = tx.map Prod.fst
  slots : ∀ i (hi : i < tx.length), disk (log.slot i) = tx[i].2
  installed : ∀ b, log.Home b → applyWrites disk tx b = post b

variable {h : Block}

section Phases

variable {log : Log} {tx : List (Nat × Block)} {pre post disk : Nat → Block}
  (hsize : 0 < log.size) (hfits : Log.Fits { log with lh := tx.map Prod.fst })

include hsize in
theorem Log.Home.ne_start (hb : log.Home b) : b ≠ log.start := by
  unfold Home at hb
  omega

include hsize in
/-- Writes to the log area that leave an empty header keep `Empty`. -/
theorem Log.Empty.update_head (he : log.Empty pre disk)
    (hh : h.getLE 0 4 = 0) : log.Empty pre (Function.update disk log.start h) where
  head := by simp [decodeHead_of_count_zero hh]
  eq_home b hb := by
    rw [update_of_ne (hb.ne_start hsize)]
    exact he.eq_home b hb

include hfits in
/-- The blocks of a transaction are outside the log area. -/
theorem Log.Fits.notMem_tx (hb : ¬ log.Home b) : b ∉ tx.map fst :=
  fun hmem => hb (hfits.home b hmem)

include hsize hfits in
/-- Installing part of a transaction leaves it pending. -/
theorem Log.Pending.take (hp : log.Pending tx post disk) (k : Nat) :
    log.Pending tx post (applyWrites disk (tx.take k)) := by
  have hkeep : ∀ b, ¬ log.Home b → applyWrites disk (tx.take k) b = disk b := by
    intro b hb
    apply applyWrites_of_notMem
    rw [map_take]
    exact fun hmem => hfits.notMem_tx hb (mem_of_mem_take hmem)
  refine ⟨?_, ?_, ?_⟩
  · rw [hkeep _ (fun h => h.ne_start hsize rfl)]
    exact hp.head
  · intro i hi
    have hroom := hfits.room i (by simpa using hi)
    rw [hkeep _ (by unfold Home slot; simp only at hroom; omega)]
    exact hp.slots i hi
  · intro b hb
    rw [applyWrites_take_then_all]
    exact hp.installed b hb

include hsize in
/-- Installing all of a transaction and clearing the header completes it. -/
theorem Log.Pending.install (hp : log.Pending tx post disk) (hh : h.getLE 0 4 = 0) :
    log.Empty post (applyWrites disk (tx ++ [(log.start, h)])) := by
  rw [applyWrites_concat]
  refine ⟨by simp [decodeHead_of_count_zero hh], ?_⟩
  intro b hb
  rw [update_of_ne (hb.ne_start hsize)]
  exact hp.installed b hb

include hsize hfits in
/-- After any prefix of the writes that install a transaction and clear
the header it is still pending, or done. -/
theorem Log.Pending.take_install (hp : log.Pending tx post disk) (hh : h.getLE 0 4 = 0) (k : Nat) :
    log.Empty post (applyWrites disk ((tx ++ [(log.start, h)]).take k)) ∨
      log.Pending tx post (applyWrites disk ((tx ++ [(log.start, h)]).take k)) := by
  by_cases hk : k ≤ tx.length
  · right
    rw [take_append_of_le_length hk]
    exact hp.take hsize hfits k
  left
  rw [take_of_length_le (by simp; omega)]
  exact hp.install hsize hh

/-! ## Recovery -/

/-- A disk from which recovery leads to the home blocks of `post`. -/
def Log.Settling (log : Log) (tx : List (Nat × Block)) (post disk : Nat → Block) : Prop :=
  log.Empty post disk ∨ log.Pending tx post disk

/-- A log with an empty header fits. -/
theorem Log.fits_nil (log : Log) : Fits { log with lh := [] } := by constructor <;> simp

/-- What recovery writes on an empty log. -/
theorem Log.Empty.recoverWrites (he : log.Empty post disk) :
    ∃ h : Block, h.getLE 0 4 = 0 ∧ Xv6.recoverWrites log disk = [(log.start, h)] ∧
      (recoverFromLog log (Dev.boot disk)).2.disk =
        applyWrites disk (Xv6.recoverWrites log disk) := by
  have h := @recoverWrites_eq log disk [] log.fits_nil he.head (by simp)
  simpa using h

include hsize hfits

/-- A recovery that is cut short loses nothing. -/
theorem Log.Settling.recoverCut (hs : log.Settling tx post disk) (k : Nat) :
    log.Settling tx post (Xv6.recoverCut log disk k) := by
  unfold Xv6.recoverCut
  rcases hs with he | hp
  · obtain ⟨h, hh, hw, -⟩ := he.recoverWrites
    left
    rw [hw]
    cases k with
    | zero => exact he
    | succ k => simpa using he.update_head hsize hh
  · obtain ⟨h, hh, hw, -⟩ := recoverWrites_eq hfits hp.head hp.slots
    rw [hw]
    exact hp.take_install hsize hfits hh k

/-- A complete recovery reaches `post` and empties the header. -/
theorem Log.Settling.recoverFromLog (hs : log.Settling tx post disk) :
    log.Empty post (recoverFromLog log (Dev.boot disk)).2.disk ∧
      ((Xv6.recoverFromLog log (Dev.boot disk)).2.disk log.start).getLE 0 4 = 0 := by
  rcases hs with he | hp
  · obtain ⟨h, hh, hw, hdisk⟩ := he.recoverWrites
    rw [hdisk, hw]
    exact ⟨he.update_head hsize hh, by simpa using hh⟩
  obtain ⟨h, hh, hw, hdisk⟩ := recoverWrites_eq hfits hp.head hp.slots
  rw [hdisk, hw]
  refine ⟨hp.install hsize hh, ?_⟩
  rw [applyWrites_concat]
  simpa using hh

/-- Any number of recoveries that are cut short lose nothing. -/
theorem Log.Settling.recoverCuts (hs : log.Settling tx post disk) (cuts : List Nat) :
    log.Settling tx post (cuts.foldl (Xv6.recoverCut log) disk) := by
  induction cuts generalizing disk with
  | nil => exact hs
  | cons k cuts ih => exact ih (hs.recoverCut hsize hfits k)

end Phases

/-- Where the log lies does not change over a reboot. -/
theorem Log.Settling.reboot {log : Log} {tx : List (Nat × Block)}
    {post disk : Nat → Block} (hs : log.Settling tx post disk) :
    (init log.start log.size).Settling tx post disk := by
  rcases hs with he | hp
  · exact .inl ⟨he.head, he.eq_home⟩
  · exact .inr ⟨hp.head, hp.slots, hp.installed⟩

/-! ## Commit -/

namespace Log.Fits

variable {log : Log} (hfits : log.Fits) (hsize : 0 < log.size) {d : Dev}
  {pre : Nat → Block} (hpre : log.Empty pre d.disk)
include hfits

theorem headReached_iff (k : Nat) : HeadReached log d k ↔ log.lh ≠ [] ∧ log.lh.length < k := by
  rw [HeadReached, hfits.writeLog_eq]
  simp [copies]

/-- The copies go to the log area, behind the header. -/
theorem notMem_copies (hb : log.Home b ∨ b = log.start) : b ∉ (log.copies d).map fst := by
  rw [copies_fst]
  intro hmem
  obtain ⟨i, hi, rfl⟩ := mem_map.1 hmem
  have hroom := hfits.room i (mem_range.1 hi)
  unfold Home slot at hb
  omega

include hpre in
/-- While the copies are being written nothing has happened yet. -/
theorem empty_copies (k : Nat) : log.Empty pre (applyWrites d.disk ((log.copies d).take k)) := by
  have hkeep : ∀ b, log.Home b ∨ b = log.start →
      applyWrites d.disk ((log.copies d).take k) b = d.disk b := by
    intro b hb
    apply applyWrites_of_notMem
    rw [map_take]
    exact fun hmem => hfits.notMem_copies hb (mem_of_mem_take hmem)
  refine ⟨?_, ?_⟩
  · rw [hkeep _ (.inr rfl)]
    exact hpre.head
  intro b hb
  rw [hkeep b (.inl hb)]
  exact hpre.eq_home b hb

include hsize hpre in
/-- The first `write_head` makes the whole transaction pending. -/
theorem pending_head (hh : decodeHead h = log.lh) :
    log.Pending (log.contents d) (applyWrites pre (log.contents d))
      (Function.update (applyWrites d.disk (log.copies d)) log.start h) := by
  refine ⟨?_, ?_, ?_⟩
  · rw [update_self, contents_fst, hh]
  · intro i hi
    have hi' : i < log.lh.length := by simpa [contents] using hi
    have hne : log.slot i ≠ log.start := by
      unfold slot
      omega
    rw [update_of_ne hne, applyWrites_copies d _ hi']
    simp [contents]
  · intro b hb
    apply applyWrites_congr
    right
    rw [update_of_ne (hb.ne_start hsize), applyWrites_of_notMem (hfits.notMem_copies (.inl hb))]
    exact hpre.eq_home b hb

include hsize hpre in
/-- Every crash point of a commit: the transaction takes place exactly
when the first `write_head` reached the disk. -/
theorem crashed_settling (k : Nat) : log.Settling (log.contents d)
      (if HeadReached log d k then applyWrites pre (log.contents d) else pre)
      (crashed log d k) := by
  unfold crashed
  by_cases hne : log.lh = []
  · left
    have hnone : commitWrites log d = [] := by simp [commitWrites, commit, hne]
    rw [if_neg (fun h => h.1 hne), hnone]
    simpa using hpre
  obtain ⟨h1, h0, hh1, hh0, hw⟩ := hfits.commitWrites_eq d hne
  have hlen : (log.copies d).length = log.lh.length := by simp [copies]
  rw [hw]
  by_cases hk : log.lh.length < k
  · rw [if_pos ((hfits.headReached_iff k).2 ⟨hne, hk⟩)]
    obtain ⟨j, rfl⟩ : ∃ j, k = (log.copies d).length + (j + 1) :=
      ⟨k - log.lh.length - 1, by omega⟩
    rw [take_length_add_append, take_succ_cons, applyWrites_append, applyWrites_cons]
    have hfits' : Fits { log with lh := (log.contents d).map fst } := by rwa [contents_fst]
    exact (hfits.pending_head hsize hpre hh1).take_install hsize hfits' hh0 j
  · rw [if_neg (fun h => hk ((hfits.headReached_iff k).1 h).2),
      take_append_of_le_length (by omega)]
    exact .inl (hfits.empty_copies hpre k)

end Log.Fits

/-- Installing the logged contents of a transaction is making its updates. -/
theorem Log.applyWrites_contents {log : Log} {d : Dev} {us : List (UInt32 × Block)}
    (hmem : ∀ b, b ∈ log.lh ↔ b ∈ (updated us).map fst) (s : Nat → Block)
    (hcache : d.cache = applyWrites s (updated us)) (hnd : log.lh.Nodup) (t : Nat → Block) :
    applyWrites t (log.contents d) = applyWrites t (updated us) := by
  funext b
  by_cases hb : b ∈ log.lh
  · have hin : (b, d.cache b) ∈ log.contents d := mem_map.2 ⟨b, hb, rfl⟩
    rw [applyWrites_of_mem (by rw [contents_fst]; exact hnd) hin, hcache]
    exact applyWrites_congr (.inl ((hmem b).1 hb))
  · rw [applyWrites_of_notMem (by rw [contents_fst]; exact hb),
      applyWrites_of_notMem (fun h => hb ((hmem b).2 h))]

/-- **A crash never splits a transaction.**  Take a log that holds no
transaction, log any updates to home blocks, cut the commit off after any
`k` writes, cut any number of recoveries off anywhere, and let one complete.
Then the home blocks hold what the transaction left in them if the first
`write_head` was among the `k` writes, and what they held before it if not,
and the header on the disk is empty. -/
theorem commit_crash_atomic (log log' : Log) (d d' : Dev) (us : List (UInt32 × Block))
    (hsize : 0 < log.size) (hlh : log.lh = [])
    (hhead : decodeHead (d.disk log.start) = [])
    (hhome : ∀ u ∈ us, log.Home u.1.toNat)
    (htx : log.transaction d us = .ok (log', d')) (k : Nat) (cuts : List Nat) :
    (∀ b, log.Home b →
      recovered (Log.init log.start log.size) (crashed log' d' k) cuts b =
        if HeadReached log' d' k then applyWrites d.disk (Log.updated us) b
        else d.disk b) ∧
      (recovered (Log.init log.start log.size) (crashed log' d' k) cuts
        log.start).getLE 0 4 = 0 := by
  have hfits : log.Fits := by
    have h := log.fits_nil
    rwa [← hlh] at h
  obtain ⟨hfits', hlog', hmem, hd'⟩ := Log.transaction_spec hfits hhome htx
  have hdisk : d'.disk = d.disk := by rw [hd']
  have hstart : log'.start = log.start := by rw [hlog']
  have hlogsize : log'.size = log.size := by rw [hlog']
  have hcontents : applyWrites d.disk (log'.contents d') =
      applyWrites d.disk (Log.updated us) := by
    apply Log.applyWrites_contents (by simpa [hlh] using hmem) d.cache
    · rw [hd']
    · exact hfits'.nodup
  have hpre : log'.Empty d.disk d'.disk := by
    refine ⟨by rw [hdisk, hstart]; exact hhead, ?_⟩
    intro b _
    rw [hdisk]
  rw [← hlogsize] at hsize
  have hboot : Log.Fits { Log.init log'.start log'.size with
      lh := (log'.contents d').map Prod.fst } := by
    rw [Log.contents_fst]
    exact ⟨hfits'.nodup, hfits'.short, hfits'.room, hfits'.home, hfits'.int⟩
  have hcrash := (hfits'.crashed_settling hsize hpre k).reboot
  have hsize' : 0 < (Log.init log'.start log'.size).size := hsize
  have hs := hcrash.recoverCuts hsize' hboot cuts
  obtain ⟨hempty, hcount⟩ := hs.recoverFromLog hsize' hboot
  rw [← hstart, ← hlogsize]
  refine ⟨?_, hcount⟩
  intro b hb
  have hb' : (Log.init log'.start log'.size).Home b := by
    unfold Log.Home at hb ⊢
    simp only [Log.init]
    omega
  have hfinal := hempty.eq_home b hb'
  rw [hcontents] at hfinal
  unfold recovered
  rw [hfinal]
  split <;> rfl

/-- A log with room for two copies, after one `begin_op`. -/
def Log.small : Log := { Log.init 2 4 with outstanding := 1 }

/-- Two updates of block 50 and one of block 51, cut off before and after
the first `write_head`, with two recoveries cut off in between. -/
theorem commit_crash_atomic_two_blocks :
    ∃ log d, Log.small.transaction (Dev.boot fun _ _ => 0)
        [(50, fun _ => 1), (51, fun _ => 2), (50, fun _ => 3)] = .ok (log, d) ∧
      recovered (Log.init 2 4) (crashed log d 3) [0, 1] 50 = (fun _ => 3) ∧
      recovered (Log.init 2 4) (crashed log d 2) [0, 1] 50 = (fun _ => 0) := by
  have hhome : ∀ u ∈ [((50 : UInt32), (fun _ => 1 : Block)), (51, fun _ => 2),
      (50, fun _ => 3)], Log.small.Home u.1.toNat := by
    intro u hu
    simp only [List.mem_cons, List.not_mem_nil, or_false] at hu
    rcases hu with rfl | rfl | rfl <;> decide
  refine ⟨_, _, rfl, ?_, ?_⟩
  · have h := (commit_crash_atomic Log.small _ (Dev.boot fun _ _ => 0) _ _
      (by decide) rfl rfl hhome rfl 3 [0, 1]).1 50 (by decide)
    rwa [if_pos (by decide)] at h
  · have h := (commit_crash_atomic Log.small _ (Dev.boot fun _ _ => 0) _ _
      (by decide) rfl rfl hhome rfl 2 [0, 1]).1 50 (by decide)
    rwa [if_neg (by decide)] at h

end Xv6
