import Tweezer.WriteDurability

/-!
# Crashes and recoveries

When the process ends its memtables are gone, and the last records of the current log may be
gone too. What was written before these is in files or in logs that are replayed, so a recovery
leaves it all in files, and runs go on from there.
-/

namespace Tweezer

/-! ### The end of a log is lost -/

theorem forFamily_filter (p : MemEntry → Bool) (id : UInt32) (es : List (UInt32 × MemEntry)) :
    forFamily id (es.filter fun e => p e.2) = (forFamily id es).filter p := by
  induction es with
  | nil => rfl
  | cons e es ih =>
      rw [forFamily, forFamily] at ih ⊢
      by_cases hid : e.1 = id
      · cases hp : p e.2 with
        | true => simp [hid, hp, ih]
        | false => simp [hid, hp, ih]
      · cases hp : p e.2 with
        | true => simp [hid, hp, ih]
        | false => simp [hid, hp, ih]

/-- A column family without the entries from this sequence number on in its memtable. -/
def keepBelow (bound : ℕ) (cf : ColumnFamily) : ColumnFamily :=
  { cf with mem := cf.mem.filter fun e => e.seq < bound }

namespace Durable

variable {db : WriteDb} {old : List LoggedGroups} {cur : LoggedGroups}
variable {written : List (UInt32 × MemEntry)}

/-- The groups of the current log up to one of them are what was written before it. -/
theorem inLogs_take (h : Durable db old cur written) {k : ℕ} {g : ℕ × List BatchRecord}
    (hg : cur.groups[k]? = some g) (id : UInt32) (keep : ℕ → Bool) :
    inLogs keep id (old ++ [⟨cur.number, cur.groups.take k⟩]) =
      (inLogs keep id (old ++ [cur])).filter fun e => e.seq < g.1 := by
  have horder := h.inOrder
  obtain ⟨hk, hget⟩ := List.getElem?_eq_some_iff.mp hg
  have hdrop : cur.groups.drop k = g :: cur.groups.drop (k + 1) := by
    rw [List.drop_eq_getElem_cons hk, hget]
  have hall : cur.groups = cur.groups.take k ++ cur.groups.drop k :=
    (List.take_append_drop k cur.groups).symm
  rw [groupsOf_concat] at horder
  obtain ⟨-, hcur, hcross⟩ := List.pairwise_append.mp horder
  rw [hall] at hcur
  obtain ⟨-, hlater, hearlier⟩ := List.pairwise_append.mp hcur
  rw [hdrop] at hlater hearlier
  have hgmem : g ∈ cur.groups := List.mem_of_getElem? hg
  have hold : (inLogs keep id old).filter (fun e => e.seq < g.1) = inLogs keep id old := by
    rw [List.filter_eq_self]
    intro e he
    obtain ⟨l, hl, -, hentry⟩ := mem_inLogs.mp he
    obtain ⟨g', hg', hentry⟩ := List.mem_flatMap.mp hentry
    have hend := hcross g' (List.mem_flatMap.mpr ⟨l, hl, hg'⟩) g hgmem
    exact decide_eq_true ((seq_of_mem_entriesFrom hentry).2.trans_le hend)
  have hbefore : (forFamily id (entriesOf (cur.groups.take k))).filter
      (fun e => e.seq < g.1) = forFamily id (entriesOf (cur.groups.take k)) := by
    rw [List.filter_eq_self]
    intro e he
    obtain ⟨g', hg', hentry⟩ := List.mem_flatMap.mp (mem_forFamily.mp he)
    have hend := hearlier g' hg' g List.mem_cons_self
    exact decide_eq_true ((seq_of_mem_entriesFrom hentry).2.trans_le hend)
  have hbehind : (forFamily id (entriesOf (cur.groups.drop k))).filter
      (fun e => e.seq < g.1) = [] := by
    rw [List.filter_eq_nil_iff, hdrop]
    intro e he hlt
    obtain ⟨g', hg', hentry⟩ := List.mem_flatMap.mp (mem_forFamily.mp he)
    have hle : g.1 ≤ g'.1 := by
      rcases List.mem_cons.mp hg' with rfl | htail
      · exact Nat.le_refl _
      · exact (Nat.le_add_right _ _).trans ((List.pairwise_cons.mp hlater).1 g' htail)
    have hseq := (seq_of_mem_entriesFrom hentry).1
    have hseqlt := of_decide_eq_true hlt
    dsimp only at hseq
    omega
  have hentries : forFamily id cur.entries = forFamily id (entriesOf (cur.groups.take k)) ++
      forFamily id (entriesOf (cur.groups.drop k)) := by
    rw [← forFamily_append, entriesOf, entriesOf, ← List.flatMap_append, ← hall]
    rfl
  rw [inLogs_append, inLogs_append, List.filter_append, hold]
  congr 1
  cases hkeep : keep cur.number with
  | true =>
      have hone : ∀ l : LoggedGroups, l.number = cur.number →
          inLogs keep id [l] = forFamily id l.entries := fun l hl => by
        simp [inLogs, hl, hkeep]
      rw [hone ⟨cur.number, cur.groups.take k⟩ rfl, hone cur rfl, hentries, List.filter_append,
        hbefore, hbehind, List.append_nil]
      rfl
  | false => simp [inLogs, hkeep]

/-- What the disk holds behind a crash is what it holds of a database that wrote less. -/
theorem loseTail (h : Durable db old cur written) {k : ℕ} {g : ℕ × List BatchRecord}
    (hg : cur.groups[k]? = some g) :
    Durable { db.loseTail k with families := db.families.map (keepBelow g.1) } old
      ⟨cur.number, cur.groups.take k⟩ (written.filter fun p => p.2.seq < g.1) := by
  have hcat : catalog (db.families.map (keepBelow g.1)) = catalog db.families :=
    catalog_map fun _ => ⟨rfl, rfl, rfl⟩
  have hids := catalog_kept hcat
  have htake : (cur.groups.take k).Sublist cur.groups := List.take_sublist k _
  have hgroups : (groupsOf (old ++ [⟨cur.number, cur.groups.take k⟩])).Sublist
      (groupsOf (old ++ [cur])) := by
    rw [groupsOf_concat, groupsOf_concat]
    exact (List.Sublist.refl _).append htake
  have hgmem : g ∈ cur.groups := List.mem_of_getElem? hg
  exact
    { oldLogs := h.oldLogs
      log := by
        rw [WriteDb.loseTail, h.log]
        simp [LoggedGroups.live]
      numbers := h.numbers
      positive := h.positive_of_number rfl
      replayable := fun g' hg' => (h.replayable g' (hgroups.subset hg')).of_catalog hcat
      ends := fun g' hg' => h.ends g' (hgroups.subset hg')
      inOrder := h.inOrder.sublist hgroups
      manifest := fun cf hcf => by
        obtain ⟨f, hf, rfl⟩ := List.mem_map.mp hcf
        exact h.manifest f hf
      filesFirst := fun cf hcf e he g' hg' => by
        obtain ⟨f, hf, rfl⟩ := List.mem_map.mp hcf
        exact h.filesFirst f hf e he g' (htake.subset hg')
      sequence := h.sequence
      left := h.left
      ids := hids ▸ h.ids
      families := fun cf hcf => by
        obtain ⟨f, hf, rfl⟩ := List.mem_map.mp hcf
        have hkept := h.families f hf
        have himm : ∀ e ∈ f.imm.flatMap Prod.fst, decide (e.seq < g.1) = true :=
          fun e he => decide_eq_true (h.imm_first hf he g hgmem)
        have hflushed : ∀ e ∈ f.flushed, decide (e.seq < g.1) = true :=
          fun e he => decide_eq_true (h.filesFirst f hf e he g hgmem)
        exact
          { manifest := hkept.manifest
            logNumber := hkept.logNumber
            imm := hkept.imm
            segments := hkept.segments.filter (h.inLogs_take hg f.id) himm
            between := by
              have hnone := h.inLogs_take hg f.id
                (logsBetween f.manifestLogNumber f.logNumber)
              rw [hkept.between, List.filter_nil] at hnone
              exact hnone
            flushed := hkept.flushed
            contents := by
              have hcontents := hkept.contents.filter fun e => decide (e.seq < g.1)
              rw [List.filter_append, List.filter_append, List.filter_eq_self.mpr hflushed,
                List.filter_eq_self.mpr himm] at hcontents
              exact hcontents.trans (List.Perm.of_eq (forFamily_filter _ _ _).symm) }
      known := fun p hp => by
        change p.1 ∈ (db.families.map (keepBelow g.1)).map ColumnFamily.id
        rw [hids]
        exact h.known p (List.mem_of_mem_filter hp)
      increasing := h.increasing.sublist (List.filter_sublist.map _)
      below := fun p hp => h.below p (List.mem_of_mem_filter hp) }

/-! ### A recovery -/

/-- Whether a log is replayed. -/
def isReplayed (families : List ColumnFamily) (n : ℕ) : Bool :=
  (WriteDb.minLogNumber (families.map WriteDb.restore)).all fun m => m ≤ n

theorem isReplayed_of_le {families : List ColumnFamily} {cf : ColumnFamily}
    (hcf : cf ∈ families) {n : ℕ} (hn : cf.manifestLogNumber ≤ n) :
    isReplayed families n = true := by
  rw [isReplayed, Option.all_eq_true]
  intro m hm
  exact decide_eq_true ((minLogNumber_le hm (List.mem_map_of_mem hcf)).trans hn)

/-- A log that is not replayed is older than what some column family needs. -/
theorem exists_of_not_isReplayed {families : List ColumnFamily} {n : ℕ}
    (h : ¬ isReplayed families n = true) : ∃ cf ∈ families, n < cf.manifestLogNumber := by
  cases hmin : WriteDb.minLogNumber (families.map WriteDb.restore) with
  | none => simp [isReplayed, hmin] at h
  | some m =>
      have hlt : n < m := by simpa [isReplayed, hmin] using h
      obtain ⟨hmem, -⟩ := List.min?_eq_some_iff.mp hmin
      obtain ⟨f, hf, rfl⟩ := List.mem_map.mp hmem
      obtain ⟨cf, hcf, rfl⟩ := List.mem_map.mp hf
      exact ⟨cf, hcf, hlt⟩

def replayedLogs (families : List ColumnFamily) (ls : List LoggedGroups) : List LoggedGroups :=
  ls.filter fun l => isReplayed families l.number

/-- A column family behind a recovery. -/
def recovered (ls : List LoggedGroups) (maxLogNumber : ℕ) (cf : ColumnFamily) : ColumnFamily :=
  WriteDb.finishRecovery maxLogNumber (addLogs ls (WriteDb.restore cf))

theorem recovered_eq {cf : ColumnFamily} {maxLogNumber : ℕ}
    (h : cf.manifestLogNumber ≤ maxLogNumber) (ls : List LoggedGroups) :
    recovered ls maxLogNumber cf = { cf with
      flushed := cf.flushed ++ inLogs (fromLog cf.manifestLogNumber) cf.id ls
      imm := []
      mem := []
      logNumber := maxLogNumber + 1
      manifestLogNumber := maxLogNumber + 1 } := by
  rw [recovered, WriteDb.finishRecovery]
  rw [if_neg (show ¬ maxLogNumber < (addLogs ls (WriteDb.restore cf)).logNumber from h.not_gt)]
  rfl

theorem recovered_kept (h : Durable db old cur written) {n last : ℕ} (hn : cur.number + 1 < n)
    (hlast : db.manifestLastSequence ≤ last)
    (hends : ∀ g ∈ groupsOf (replayedLogs db.families (old ++ [cur])), groupEnd g ≤ last + 1)
    {cf : ColumnFamily} (hcf : cf ∈ db.families) :
    FamilyKept (old ++ [cur] ++ [⟨n, []⟩]) n last written
      (recovered (replayedLogs db.families (old ++ [cur])) cur.number cf) := by
  have hkept := h.families cf hcf
  have hnumber := hkept.manifest.trans hkept.logNumber
  rw [recovered_eq hnumber]
  have hneeded : ∀ m, fromLog cf.manifestLogNumber m = true →
      isReplayed db.families m = true := fun m hm =>
    isReplayed_of_le hcf (fromLog_eq_true.mp hm)
  have hreplayed := inLogs_filter hneeded cf.id (old ++ [cur])
  have hlogs : (inLogs (fromLog cf.manifestLogNumber) cf.id (old ++ [cur])).Perm
      (cf.imm.flatMap Prod.fst ++ cf.mem) := by
    have hsplit := inLogs_split hkept.manifest cf.id (old ++ [cur])
    rw [hkept.between, List.nil_append] at hsplit
    exact hsplit.trans hkept.segments.perm.symm
  exact
    { manifest := Nat.le_refl _
      logNumber := hn.le
      imm := by simp
      segments := by
        rw [Segments, inLogs_new]
        refine (List.Perm.of_eq ?_).symm
        rw [inLogs_eq_nil]
        intro l hl hkeep
        have hle : cur.number + 1 ≤ l.number := fromLog_eq_true.mp hkeep
        rcases List.mem_append.mp hl with hold | hcur
        · have hlt := h.numbers l hold
          omega
        · rw [List.mem_singleton.mp hcur] at hle
          omega
      between := inLogs_between_self _ _ _
      flushed := fun e he => by
        rcases List.mem_append.mp he with hold | hnew
        · exact (hkept.flushed e hold).trans hlast
        · obtain ⟨l, hl, -, hentry⟩ := mem_inLogs.mp hnew
          obtain ⟨g, hg, hentry⟩ := List.mem_flatMap.mp hentry
          have hlt : e.seq < g.1 + countOf g.2 := (seq_of_mem_entriesFrom hentry).2
          have hend := hends g (List.mem_flatMap.mpr ⟨l, hl, hg⟩)
          rw [groupEnd] at hend
          omega
      contents := by
        dsimp only
        rw [replayedLogs, hreplayed, List.flatMap_nil, List.nil_append, List.append_nil]
        exact (hlogs.append_left _).trans hkept.contents }

theorem catalog_recovered (families : List ColumnFamily) (ls : List LoggedGroups) (n : ℕ) :
    catalog (families.map (recovered ls n)) = catalog families :=
  catalog_map fun cf => by
    rw [recovered, WriteDb.finishRecovery]
    split_ifs <;> exact ⟨rfl, rfl, rfl⟩

/-- The database behind a recovery that replayed these logs. -/
def behindRecovery (db : WriteDb) (ls : List LoggedGroups) (last n : ℕ) : WriteDb :=
  { db with
    lastSequence := last
    manifestLastSequence := last
    families := db.families.map (recovered ls db.log.number)
    oldLogs := db.oldLogs ++ [db.log]
    log := ⟨n, []⟩ }

/-- The logs are all replayed, and no sequence number of theirs is lost. -/
theorem reopen_eq (h : Durable db old cur written) (n : ℕ) :
    ∃ last, db.reopen n =
        .ok (.ok, behindRecovery db (replayedLogs db.families (old ++ [cur])) last n) ∧
      db.manifestLastSequence ≤ last ∧ last ≤ db.lastSequence ∧
      ∀ g ∈ groupsOf (replayedLogs db.families (old ++ [cur])), groupEnd g ≤ last + 1 := by
  have hsublist : (replayedLogs db.families (old ++ [cur])).Sublist (old ++ [cur]) :=
    List.filter_sublist
  have hgroups := groupsOf_sublist hsublist
  have hcat : catalog (db.families.map WriteDb.restore) = catalog db.families :=
    catalog_map fun _ => ⟨rfl, rfl, rfl⟩
  have hbelow : MemsBelow (db.families.map WriteDb.restore) 0 := by
    intro cf hcf d hd
    obtain ⟨f, -, rfl⟩ := List.mem_map.mp hcf
    exact absurd hd List.not_mem_nil
  obtain ⟨last, next, hrun, hlast, hends, hleast⟩ := replayLogs_groups
    (catalog_kept hcat ▸ h.ids) (fun l hl => h.positive l (hsublist.subset hl))
    (fun g hg => (h.replayable g (hgroups.subset hg)).of_catalog hcat)
    (h.inOrder.sublist hgroups) hbelow (fun g _ => Nat.zero_le g.1)
    (fun hne => absurd rfl hne : kMaxSequenceNumber ≠ kMaxSequenceNumber →
      kMaxSequenceNumber ≤ db.manifestLastSequence + 1)
  have hlogs : (db.oldLogs ++ [db.log]).filter (fun log =>
      (WriteDb.minLogNumber (db.families.map WriteDb.restore)).all fun m => m ≤ log.number) =
      (replayedLogs db.families (old ++ [cur])).map LoggedGroups.live := by
    have hall : db.oldLogs ++ [db.log] = (old ++ [cur]).map LoggedGroups.live := by
      rw [h.oldLogs, h.log, List.map_append]
      rfl
    rw [hall, List.filter_map]
    rfl
  refine ⟨last, ?_, hlast, hleast _ h.sequence fun g hg => h.ends g (hgroups.subset hg), hends⟩
  rw [WriteDb.reopen]
  dsimp only
  rw [hlogs, hrun, Outcome.ok_bind]
  dsimp only
  rw [if_neg (by simp [BatchStatus.isOk]), List.map_map, List.map_map]
  rfl

/-- A log that is not replayed ends where the manifest knows of it. -/
theorem ends_le (h : Durable db old cur written) {last : ℕ}
    (hlast : db.manifestLastSequence ≤ last)
    (hends : ∀ g ∈ groupsOf (replayedLogs db.families (old ++ [cur])), groupEnd g ≤ last + 1) :
    ∀ l ∈ old ++ [cur], ∀ g ∈ l.groups, groupEnd g ≤ last + 1 := by
  intro l hl g hg
  by_cases hreplayed : isReplayed db.families l.number = true
  · exact hends g (List.mem_flatMap.mpr ⟨l, List.mem_filter.mpr ⟨hl, hreplayed⟩, hg⟩)
  · obtain ⟨cf, hcf, hlt⟩ := exists_of_not_isReplayed hreplayed
    have hneeds := (h.families cf hcf).manifest.trans (h.families cf hcf).logNumber
    rcases List.mem_append.mp hl with hold | hcur
    · have hend := h.manifest cf hcf l hold hlt g hg
      omega
    · rw [List.mem_singleton.mp hcur] at hlt
      exact absurd hlt hneeds.not_gt

theorem behind (h : Durable db old cur written) {n last : ℕ} (hn : db.log.number + 1 < n)
    (hlast : db.manifestLastSequence ≤ last) (hleft : last ≤ db.lastSequence)
    (hends : ∀ g ∈ groupsOf (replayedLogs db.families (old ++ [cur])), groupEnd g ≤ last + 1) :
    Durable (behindRecovery db (replayedLogs db.families (old ++ [cur])) last n)
      (old ++ [cur]) ⟨n, []⟩ written := by
  have hnumber : db.log.number = cur.number := by
    rw [h.log]
    rfl
  rw [hnumber] at hn
  have hcat := catalog_recovered db.families (replayedLogs db.families (old ++ [cur])) cur.number
  have hids := catalog_kept hcat
  have hnew : groupsOf (old ++ [cur] ++ [⟨n, []⟩]) = groupsOf (old ++ [cur]) := by
    rw [groupsOf_concat, List.append_nil]
  have hall := h.ends_le hlast hends
  rw [behindRecovery, hnumber]
  exact
    { oldLogs := by
        dsimp only
        rw [h.oldLogs, h.log, List.map_append]
        rfl
      log := rfl
      numbers := fun l hl => by
        dsimp only
        rcases List.mem_append.mp hl with hold | hcur
        · have hlt := h.numbers l hold
          omega
        · rw [List.mem_singleton.mp hcur]
          omega
      positive := fun l hl => by
        rcases List.mem_append.mp hl with hold | hlog
        · exact h.positive l hold
        · rw [List.mem_singleton.mp hlog]
          exact Nat.zero_lt_of_lt hn
      replayable := hnew ▸ fun g hg => (h.replayable g hg).of_catalog hcat
      ends := hnew ▸ fun g hg => by
        obtain ⟨l, hl, hg⟩ := List.mem_flatMap.mp hg
        exact hall l hl g hg
      inOrder := hnew ▸ h.inOrder
      manifest := fun _ _ l hl _ => hall l hl
      filesFirst := fun _ _ _ _ _ hg => absurd hg List.not_mem_nil
      sequence := Nat.le_refl _
      left := (Nat.add_le_add_right hleft 1).trans_lt h.left
      ids := hids ▸ h.ids
      families := fun cf hcf => by
        obtain ⟨f, hf, rfl⟩ := List.mem_map.mp hcf
        exact h.recovered_kept hn hlast hends hf
      known := fun p hp => hids ▸ h.known p hp
      increasing := h.increasing
      below := fun p hp => by
        obtain ⟨cf, hcf, hid⟩ := List.mem_map.mp (h.known p hp)
        have hkept := h.recovered_kept hn hlast hends hcf
        rw [recovered_eq ((h.families cf hcf).manifest.trans (h.families cf hcf).logNumber)]
          at hkept
        have hmem : p.2 ∈ forFamily cf.id written := mem_forFamily.mpr (hid ▸ hp)
        have hfiles := hkept.contents.mem_iff.mpr hmem
        simp only [List.flatMap_nil, List.append_nil] at hfiles
        exact hkept.flushed _ hfiles }

/-- A recovery goes through, and what it leaves is durable again. -/
theorem reopen (h : Durable db old cur written) {n : ℕ} (hn : db.log.number + 1 < n) :
    ∃ db', db.reopen n = .ok (.ok, db') ∧ Durable db' (old ++ [cur]) ⟨n, []⟩ written ∧
      db'.families.map ColumnFamily.id = db.families.map ColumnFamily.id ∧
      ∀ cf ∈ db'.families, cf.imm = [] ∧ cf.mem = [] := by
  obtain ⟨last, hreopen, hlast, hleft, hends⟩ := h.reopen_eq n
  refine ⟨_, hreopen, h.behind hn hlast hleft hends,
    catalog_kept (catalog_recovered db.families _ _), fun cf hcf => ?_⟩
  obtain ⟨f, hf, rfl⟩ := List.mem_map.mp hcf
  have hneeds := (h.families f hf).manifest.trans (h.families f hf).logNumber
  have hnumber : db.log.number = cur.number := by
    rw [h.log]
    rfl
  rw [hnumber, recovered_eq hneeds]
  exact ⟨rfl, rfl⟩

/-- A recovery does not see what was in memtables. -/
theorem reopen_keepBelow {bound n : ℕ} {db' : WriteDb}
    (h : { db with families := db.families.map (keepBelow bound) }.reopen n = .ok (.ok, db')) :
    db.reopen n = .ok (.ok, db') := by
  have hrestore : (db.families.map (keepBelow bound)).map WriteDb.restore =
      db.families.map WriteDb.restore := by
    rw [List.map_map]
    rfl
  rw [WriteDb.reopen] at h ⊢
  dsimp only at h ⊢
  rw [hrestore] at h
  obtain ⟨⟨status, s⟩, hrun, hend⟩ := Outcome.bind_eq_ok.mp h
  rw [hrun, Outcome.ok_bind]
  dsimp only at hend ⊢
  by_cases hok : status.isOk = true
  · rw [if_neg (not_not.mpr hok)] at hend ⊢
    exact hend
  · rw [if_pos hok] at hend
    cases hend
    exact absurd rfl hok

/-- A recovery behind a crash that may have lost records. -/
theorem restores (h : Durable db old cur written) (k : ℕ) {n : ℕ}
    (hn : db.log.number + 1 < n) :
    ∃ db', (db.loseTail k).reopen n = .ok (.ok, db') ∧
      (∃ old' cur', Durable db' old' cur' (db.survivors k written)) ∧
      db'.families.map ColumnFamily.id = db.families.map ColumnFamily.id ∧
      ∀ cf ∈ db'.families, cf.imm = [] ∧ cf.mem = [] := by
  have hrecords : db.log.records[k]? =
      (cur.groups[k]?).map fun g => logRecord g.1 g.2 := by
    rw [h.log, LoggedGroups.live, List.getElem?_map]
  cases hg : cur.groups[k]? with
  | none =>
      rw [hg, Option.map_none] at hrecords
      have hsame : db.loseTail k = db := by
        rw [WriteDb.loseTail, List.take_of_length_le (List.getElem?_eq_none_iff.mp hrecords)]
      obtain ⟨db', hreopen, hd, hids, hempty⟩ := h.reopen hn
      have hall : db.survivors k written = written := by rw [WriteDb.survivors, hrecords]
      rw [hsame, hall]
      exact ⟨db', hreopen, ⟨_, _, hd⟩, hids, hempty⟩
  | some g =>
      rw [hg, Option.map_some] at hrecords
      have hgroup : g ∈ groupsOf (old ++ [cur]) := List.mem_flatMap.mpr
        ⟨cur, List.mem_append_right _ (List.mem_singleton_self cur), List.mem_of_getElem? hg⟩
      have hfits := (Nat.le_add_right g.1 _).trans_lt (h.replayable g hgroup).fits
      obtain ⟨db', hreopen, hd, hids, hempty⟩ := (h.loseTail hg).reopen hn
      have hleft : db.survivors k written = written.filter fun p => p.2.seq < g.1 := by
        rw [WriteDb.survivors, hrecords]
        dsimp only
        rw [sequence_logRecord hfits]
      rw [hleft]
      refine ⟨db', reopen_keepBelow hreopen, ⟨_, _, hd⟩, ?_, hempty⟩
      rw [hids]
      exact catalog_kept (catalog_map fun _ => ⟨rfl, rfl, rfl⟩)

end Durable

/-! ### Runs -/

theorem GroupOf.short {families : List ColumnFamily} {ignoreMissing : Bool}
    {ws : List (GroupWriter × List BatchRecord)} (h : GroupOf families ignoreMissing ws) :
    ∀ r ∈ groupRecords ws, r.Short := by
  intro r hr
  obtain ⟨p, hp, hrecord⟩ := List.mem_flatMap.mp hr
  by_cases hfailed : p.1.callbackFailed = true
  · rw [if_pos hfailed] at hrecord
    exact absurd hrecord List.not_mem_nil
  · rw [if_neg hfailed] at hrecord
    exact (h.writers p hp).short r hrecord

theorem WriteRun.durable {db : WriteDb} {written : List (UInt32 × MemEntry)}
    (h : WriteRun db written) : ∃ old cur, Durable db old cur written := by
  induction h with
  | create hempty =>
      obtain ⟨cur, hcur⟩ := Durable.create hempty
      exact ⟨[], cur, hcur⟩
  | write _ hgroup hleft hwrite ih =>
      obtain ⟨old, cur, hd⟩ := ih
      obtain ⟨-, X, hX, rfl⟩ := WriteDb.write_received hgroup hd.ids
        (fun s hle => hd.memsBelow.fresh hle) hwrite
      exact ⟨old, _, hd.wrote hgroup.short
        (fun r hr => (hgroup.leader r hr).of_ignores rfl) hleft hX⟩
  | switchMemtable id _ hn ih =>
      obtain ⟨old, cur, hd⟩ := ih
      exact hd.switchMemtable id hn
  | flush id n _ ih =>
      obtain ⟨old, cur, hd⟩ := ih
      exact ⟨old, cur, hd.flush id n⟩
  | writeManifest _ ih =>
      obtain ⟨old, cur, hd⟩ := ih
      exact ⟨old, cur, hd.writeManifest⟩
  | removeObsoleteLogs _ ih =>
      obtain ⟨old, cur, hd⟩ := ih
      obtain ⟨old', hd'⟩ := hd.removeObsoleteLogs
      exact ⟨old', cur, hd'⟩
  | reopen k _ hn hreopen ih =>
      obtain ⟨old, cur, hd⟩ := ih
      obtain ⟨db', hdb', hd', -, -⟩ := hd.restores k hn
      rw [hdb'] at hreopen
      cases hreopen
      exact hd'

/-! ### A run of two writers -/

def sampleFamily (id : UInt32) : ColumnFamily :=
  ⟨id, "default", "BlockBasedTable", true, bytewiseComparator, 0, 0, [], [], []⟩

def sampleWriteDb : WriteDb := ⟨true, 0, 0, [sampleFamily 0, sampleFamily 1], [], ⟨1, []⟩⟩

def sampleGroup : List (GroupWriter × List BatchRecord) :=
  [(⟨((WriteBatch.create 0).put 0 [1] [2]).2, false, false⟩, [.put 0 [1] [2]]),
    (⟨((WriteBatch.create 0).delete 1 [3]).2, false, false⟩, [.delete 1 [3]])]

/-- The second writer begins first and is through last. -/
def sampleSchedule : List ℕ := [1, 0, 0, 1]

def sampleWritten : WriteDb :=
  match sampleWriteDb.write (sampleGroup.map Prod.fst) false sampleSchedule with
  | .ok (_, db) => db
  | .error _ => sampleWriteDb

theorem sampleWriteDb_write :
    sampleWriteDb.write (sampleGroup.map Prod.fst) false sampleSchedule =
      .ok ([.ok, .ok], sampleWritten) := rfl

theorem sampleWriteDb_empty : sampleWriteDb.Empty where
  ids := by decide
  nothing := by simp [sampleWriteDb, sampleFamily]
  logNumbers := by simp [sampleWriteDb, sampleFamily]
  noLogs := ⟨rfl, rfl, Nat.one_pos⟩
  sequence := ⟨rfl, by decide⟩

theorem groupOf_sampleGroup : GroupOf sampleWriteDb.families false sampleGroup where
  writers := by
    have hput := (Built.create 0).call (.put 0 [1] [2]) trivial trivial
    have hkey : (BatchCall.delete 1 [3]).Short := by simp [BatchCall.Short]
    have hdelete := (Built.create 0).call (.delete 1 [3]) hkey trivial
    intro p hp
    simp only [sampleGroup, List.mem_cons, List.not_mem_nil, or_false] at hp
    rcases hp with rfl | rfl
    · exact ⟨⟨_, hput, rfl, rfl⟩, by decide⟩
    · exact ⟨⟨_, hdelete, rfl, rfl⟩, by decide⟩
  own := by
    simp [sampleGroup, sampleWriteDb, sampleFamily, BatchRecord.Acceptable]
  leader := by
    simp [sampleGroup, groupRecords, sampleWriteDb, sampleFamily, BatchRecord.Acceptable]

/-- A group that is written in any of these states, whether its leader inserts the batches or
the writers do so at the same time: every writer returns ok, the log gets one record for them
all, and every memtable gets the entries of the group once. -/
theorem WriteRun.writes {db db' : WriteDb} {written : List (UInt32 × MemEntry)}
    (h : WriteRun db written) {ignoreMissing : Bool}
    {ws : List (GroupWriter × List BatchRecord)} (hws : GroupOf db.families ignoreMissing ws)
    {schedule : List ℕ} {statuses : List BatchStatus}
    (hw : db.write (ws.map Prod.fst) ignoreMissing schedule = .ok (statuses, db')) :
    (∀ status ∈ statuses, status = .ok) ∧
      db'.lastSequence = db.lastSequence + countOf (groupRecords ws) ∧
      db'.log.records = db.log.records ++ [logRecord (db.lastSequence + 1) (groupRecords ws)] ∧
      ∃ new : UInt32 → List MemEntry, db'.families = db.families.map (addMem new) ∧
        ∀ id, (new id).Perm
          (forFamily id (entriesFrom (db.lastSequence + 1) (groupRecords ws))) := by
  obtain ⟨old, cur, hd⟩ := h.durable
  obtain ⟨hok, new, hnew, rfl⟩ := WriteDb.write_received hws hd.ids
    (fun s hle => hd.memsBelow.fresh hle) hw
  have hsequence : u64 (db.lastSequence + 1) = db.lastSequence + 1 :=
    Nat.mod_eq_of_lt (hd.left.trans (by rw [kMaxSequenceNumber]; omega))
  refine ⟨hok, rfl, ?_, new, rfl, hnew⟩
  rw [WriteDb.wrote, hsequence]

theorem writes_sampleGroup : sampleWritten.lastSequence = 2 ∧
    sampleWritten.log.records = [logRecord 1 [.put 0 [1] [2], .delete 1 [3]]] := by
  have h := WriteRun.writes (WriteRun.create sampleWriteDb_empty) groupOf_sampleGroup
    sampleWriteDb_write
  exact ⟨h.2.1, h.2.2.1⟩

end Tweezer
