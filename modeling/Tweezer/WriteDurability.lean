import Mathlib.Data.List.Flatten
import Tweezer.LogRecovery

/-!
# Nothing that was written is lost

What a column family has in its files, its immutable memtables and its memtable are the entries
that were written for it, in every state that a run comes to. The entries that are not in files
are in logs from that on which the manifest says, so a recovery finds them there.
-/

namespace Tweezer

/-! ### Logs that hold more, or less -/

section

variable {ls ls' : List LoggedGroups} {id : UInt32} {lo n current : ℕ}
variable {imm : List (List MemEntry × ℕ)} {mem : List MemEntry}

theorem fromLog_eq_true {lo n : ℕ} : fromLog lo n = true ↔ lo ≤ n := by simp [fromLog]

theorem logsBetween_eq_true {lo hi n : ℕ} :
    logsBetween lo hi n = true ↔ lo ≤ n ∧ n < hi := by simp [logsBetween]

theorem inLogs_between_self (n : ℕ) (id : UInt32) (ls : List LoggedGroups) :
    inLogs (logsBetween n n) id ls = [] := by
  rw [inLogs_eq_nil]
  intro l _ hkeep
  obtain ⟨hle, hlt⟩ := logsBetween_eq_true.mp hkeep
  omega

/-- Logs that are dropped and not needed. -/
theorem inLogs_filter {keep p : ℕ → Bool} (h : ∀ n, keep n = true → p n = true) (id : UInt32)
    (ls : List LoggedGroups) :
    inLogs keep id (ls.filter fun l => p l.number) = inLogs keep id ls := by
  rw [inLogs, inLogs, List.filter_filter]
  congr 1
  apply List.filter_congr
  intro l _
  cases hkeep : keep l.number with
  | true => rw [h _ hkeep, Bool.and_true]
  | false => rfl

theorem Segments.congr (h : Segments ls id lo imm mem)
    (hlogs : ∀ keep : ℕ → Bool, (∀ n, keep n = true → lo ≤ n) →
      inLogs keep id ls' = inLogs keep id ls) : Segments ls' id lo imm mem := by
  induction imm generalizing lo with
  | nil =>
      rw [Segments, hlogs _ fun n hn => fromLog_eq_true.mp hn]
      exact h
  | cons p imm ih =>
      obtain ⟨hle, hp, hrest⟩ := h
      refine ⟨hle, ?_, ih hrest fun keep hkeep => hlogs keep fun n hn => hle.trans (hkeep n hn)⟩
      rw [hlogs _ fun n hn => (logsBetween_eq_true.mp hn).1]
      exact hp

/-- The current log gets entries, and the memtable gets them too. -/
theorem Segments.write (h : Segments ls id lo imm mem) (hlo : lo ≤ current)
    (himm : ∀ p ∈ imm, p.2 ≤ current) {entries new : List MemEntry}
    (hlogs : ∀ keep : ℕ → Bool, inLogs keep id ls' =
      inLogs keep id ls ++ if keep current then entries else [])
    (hnew : new.Perm entries) : Segments ls' id lo imm (mem ++ new) := by
  induction imm generalizing lo with
  | nil =>
      rw [Segments, hlogs, if_pos (fromLog_eq_true.mpr hlo)]
      exact h.append hnew
  | cons p imm ih =>
      obtain ⟨hle, hp, hrest⟩ := h
      have hcurrent := himm p List.mem_cons_self
      refine ⟨hle, ?_, ih hrest hcurrent fun q hq => himm q (List.mem_cons_of_mem _ hq)⟩
      rw [hlogs, if_neg fun hkeep => (logsBetween_eq_true.mp hkeep).2.not_ge hcurrent,
        List.append_nil]
      exact hp

/-- The memtable becomes immutable in front of a log that holds nothing yet. -/
theorem Segments.switch (h : Segments ls id lo imm mem) (hlo : lo ≤ n)
    (himm : ∀ p ∈ imm, p.2 ≤ n) (hempty : inLogs (fromLog n) id ls = []) :
    Segments ls id lo (imm ++ [(mem, n)]) [] := by
  induction imm generalizing lo with
  | nil =>
      have hsplit := inLogs_split hlo id ls
      rw [hempty, List.append_nil] at hsplit
      refine ⟨hlo, List.Perm.trans h hsplit, ?_⟩
      rw [Segments, hempty]
  | cons p imm ih =>
      obtain ⟨hle, hp, hrest⟩ := h
      exact ⟨hle, hp, ih hrest (himm p List.mem_cons_self)
        fun q hq => himm q (List.mem_cons_of_mem _ hq)⟩

/-- The oldest immutable memtables are flushed. -/
theorem Segments.flushed (h : Segments ls id lo imm mem) {n next : ℕ} {last : List MemEntry}
    (hlast : (imm.take n).getLast? = some (last, next)) :
    Segments ls id next (imm.drop n) mem := by
  induction imm generalizing lo n with
  | nil => simp at hlast
  | cons p imm ih =>
      obtain ⟨-, -, hrest⟩ := h
      cases n with
      | zero => simp at hlast
      | succ n =>
          rw [List.take_succ_cons] at hlast
          rw [List.drop_succ_cons]
          cases htake : (imm.take n).getLast? with
          | none =>
              have hnone : imm.take n = [] := List.getLast?_eq_none_iff.mp htake
              have hdrop : imm.drop n = imm := by
                conv_rhs => rw [← List.take_append_drop n imm, hnone, List.nil_append]
              rw [hnone, List.getLast?_singleton] at hlast
              obtain rfl : p = (last, next) := by simpa using hlast
              rw [hdrop]
              exact hrest
          | some q =>
              rw [List.getLast?_cons, htake, Option.getD_some] at hlast
              obtain rfl : q = (last, next) := by simpa using hlast
              exact ih hrest htake

/-- What is in immutable memtables is in older logs. -/
theorem Segments.mem_imm (h : Segments ls id lo imm mem) (himm : ∀ p ∈ imm, p.2 ≤ current)
    {e : MemEntry} (he : e ∈ imm.flatMap Prod.fst) :
    ∃ l ∈ ls, l.number < current ∧ (id, e) ∈ l.entries := by
  induction imm generalizing lo with
  | nil => exact absurd he List.not_mem_nil
  | cons p imm ih =>
      obtain ⟨-, hp, hrest⟩ := h
      rw [List.flatMap_cons] at he
      rcases List.mem_append.mp he with hfirst | hlater
      · obtain ⟨l, hl, hkeep, hentry⟩ := mem_inLogs.mp (hp.mem_iff.mp hfirst)
        have hlt := (logsBetween_eq_true.mp hkeep).2
        exact ⟨l, hl, hlt.trans_le (himm p List.mem_cons_self), hentry⟩
      · exact ih hrest (fun q hq => himm q (List.mem_cons_of_mem _ hq)) hlater

/-- Entries of the memtable are lost, in the logs and there. -/
theorem Segments.filter (h : Segments ls id lo imm mem) {p : MemEntry → Bool}
    (hlogs : ∀ keep : ℕ → Bool, inLogs keep id ls' = (inLogs keep id ls).filter p)
    (himm : ∀ e ∈ imm.flatMap Prod.fst, p e = true) :
    Segments ls' id lo imm (mem.filter p) := by
  induction imm generalizing lo with
  | nil =>
      rw [Segments, hlogs]
      exact List.Perm.filter p h
  | cons q imm ih =>
      obtain ⟨hle, hq, hrest⟩ := h
      refine ⟨hle, ?_, ih hrest fun e he => himm e (List.mem_append_right _ he)⟩
      have hsame : q.1.filter p = q.1 :=
        List.filter_eq_self.mpr fun e he => himm e (List.mem_append_left _ he)
      rw [hlogs, ← hsame]
      exact hq.filter p

end

/-! ### The invariant -/

/-- What a column family has is what was written for it, and what is not in its files is in logs
that it still needs. -/
structure FamilyKept (ls : List LoggedGroups) (current manifestLast : ℕ)
    (written : List (UInt32 × MemEntry)) (cf : ColumnFamily) : Prop where
  manifest : cf.manifestLogNumber ≤ cf.logNumber
  logNumber : cf.logNumber ≤ current
  imm : ∀ p ∈ cf.imm, p.2 ≤ current
  segments : Segments ls cf.id cf.logNumber cf.imm cf.mem
  between : inLogs (logsBetween cf.manifestLogNumber cf.logNumber) cf.id ls = []
  flushed : ∀ e ∈ cf.flushed, e.seq ≤ manifestLast
  contents : (cf.flushed ++ (cf.imm.flatMap Prod.fst ++ cf.mem)).Perm (forFamily cf.id written)

/-- The logs of a database by their groups, and what holds of them and of the column families. -/
structure Durable (db : WriteDb) (old : List LoggedGroups) (cur : LoggedGroups)
    (written : List (UInt32 × MemEntry)) : Prop where
  oldLogs : db.oldLogs = old.map LoggedGroups.live
  log : db.log = cur.live
  numbers : ∀ l ∈ old, l.number < cur.number
  positive : ∀ l ∈ old ++ [cur], 0 < l.number
  replayable : ∀ g ∈ groupsOf (old ++ [cur]), Replayable db.families g
  ends : ∀ g ∈ groupsOf (old ++ [cur]), groupEnd g ≤ db.lastSequence + 1
  inOrder : InOrder (groupsOf (old ++ [cur]))
  manifest : ∀ cf ∈ db.families, ∀ l ∈ old, l.number < cf.manifestLogNumber →
    ∀ g ∈ l.groups, groupEnd g ≤ db.manifestLastSequence + 1
  filesFirst : ∀ cf ∈ db.families, ∀ e ∈ cf.flushed, ∀ g ∈ cur.groups, e.seq < g.1
  sequence : db.manifestLastSequence ≤ db.lastSequence
  left : db.lastSequence + 1 < kMaxSequenceNumber
  ids : (db.families.map ColumnFamily.id).Nodup
  families : ∀ cf ∈ db.families,
    FamilyKept (old ++ [cur]) cur.number db.manifestLastSequence written cf
  known : ∀ p ∈ written, p.1 ∈ db.families.map ColumnFamily.id
  increasing : (written.map fun p => p.2.seq).Pairwise (· < ·)
  below : ∀ p ∈ written, p.2.seq ≤ db.lastSequence

theorem FamilyKept.settled {ls : List LoggedGroups} {current last last' : ℕ}
    {written : List (UInt32 × MemEntry)} {cf : ColumnFamily}
    (h : FamilyKept ls current last written cf) (hle : last ≤ last') :
    FamilyKept ls current last' written cf :=
  { h with flushed := fun e he => (h.flushed e he).trans hle }

/-- What is not in files has sequence numbers of the logs. -/
theorem FamilyKept.seq_lt {ls : List LoggedGroups} {current last bound : ℕ}
    {written : List (UInt32 × MemEntry)} {cf : ColumnFamily}
    (h : FamilyKept ls current last written cf) (hends : ∀ g ∈ groupsOf ls, groupEnd g ≤ bound)
    {e : MemEntry} (he : e ∈ cf.imm.flatMap Prod.fst ++ cf.mem) : e.seq < bound := by
  obtain ⟨l, hl, -, hentry⟩ := mem_inLogs.mp (h.segments.perm.mem_iff.mp he)
  obtain ⟨g, hg, hentry⟩ := List.mem_flatMap.mp hentry
  have hlt := (seq_of_mem_entriesFrom hentry).2
  exact hlt.trans_le (hends g (List.mem_flatMap.mpr ⟨l, hl, hg⟩))

namespace Durable

variable {db : WriteDb} {old : List LoggedGroups} {cur : LoggedGroups}
variable {written : List (UInt32 × MemEntry)}

theorem memsBelow (h : Durable db old cur written) :
    MemsBelow db.families (db.lastSequence + 1) := fun cf hcf _ hd =>
  (h.families cf hcf).seq_lt h.ends (List.mem_append_right _ hd)

theorem positive_of_number (h : Durable db old cur written) {l : LoggedGroups}
    (hl : l.number = cur.number) : ∀ m ∈ old ++ [l], 0 < m.number := by
  intro m hm
  rcases List.mem_append.mp hm with hold | hnew
  · exact h.positive m (List.mem_append_left _ hold)
  · rw [List.mem_singleton.mp hnew, hl]
    exact h.positive cur (List.mem_append_right _ (List.mem_singleton_self cur))

/-! ### A new database, and one that is written to -/

theorem create (h : db.Empty) : ∃ cur, Durable db [] cur [] := by
  obtain ⟨hold, hrecords, hpositive⟩ := h.noLogs
  refine ⟨⟨db.log.number, []⟩, ?_⟩
  have hnone : ∀ keep id, inLogs keep id ([] ++ [⟨db.log.number, []⟩]) = [] := fun keep id => by
    rw [inLogs_eq_nil]
    simp [LoggedGroups.entries, forFamily]
  exact
    { oldLogs := hold
      log := by rw [LoggedGroups.live, List.map_nil, ← hrecords]
      numbers := by simp
      positive := by simpa using hpositive
      replayable := by simp [groupsOf]
      ends := by simp [groupsOf]
      inOrder := List.Pairwise.nil
      manifest := by simp
      filesFirst := by simp
      sequence := h.sequence.1.le
      left := h.sequence.2
      ids := h.ids
      families := fun cf hcf => by
        obtain ⟨hflushed, himm, hmem⟩ := h.nothing cf hcf
        obtain ⟨hmanifest, hnumber⟩ := h.logNumbers cf hcf
        exact
          { manifest := hmanifest.le
            logNumber := hnumber
            imm := by simp [himm]
            segments := by rw [himm, hmem, Segments, hnone]
            between := hnone _ _
            flushed := by simp [hflushed]
            contents := by rw [hflushed, himm, hmem]; exact List.Perm.refl _ }
      known := by simp
      increasing := List.Pairwise.nil
      below := by simp }

theorem catalog_kept {families : List ColumnFamily} {g : ColumnFamily → ColumnFamily}
    (hcat : catalog (families.map g) = catalog families) :
    (families.map g).map ColumnFamily.id = families.map ColumnFamily.id := by
  rw [map_id_catalog, hcat, ← map_id_catalog]

/-- The entries of a group, in the order of their sequence numbers. -/
theorem increasing_entriesFrom (rs : List BatchRecord) (seq : ℕ) :
    (entriesFrom seq rs).Pairwise fun p q => p.2.seq < q.2.seq := by
  induction rs generalizing seq with
  | nil => exact List.Pairwise.nil
  | cons r rs ih =>
      rw [entriesFrom, List.pairwise_append]
      refine ⟨?_, ih _, ?_⟩
      · cases r.entry seq with
        | none => exact List.Pairwise.nil
        | some p => exact List.pairwise_singleton _ _
      · intro p hp q hq
        obtain ⟨hseq, hcounts⟩ := BatchRecord.entry_seq hp
        have hlt := (seq_of_mem_entriesFrom hq).1
        rw [if_pos hcounts] at hlt
        omega

/-- What logs hold behind one more group. -/
theorem inLogs_write (old : List LoggedGroups) (cur : LoggedGroups) (g : ℕ × List BatchRecord)
    (id : UInt32) (keep : ℕ → Bool) :
    inLogs keep id (old ++ [⟨cur.number, cur.groups ++ [g]⟩]) =
      inLogs keep id (old ++ [cur]) ++
        if keep cur.number then forFamily id (entriesFrom g.1 g.2) else [] := by
  cases hkeep : keep cur.number with
  | true => simp [inLogs, hkeep, LoggedGroups.entries]
  | false => simp [inLogs, hkeep]

/-- A column family that got the entries of a group. -/
theorem wrote_kept (h : Durable db old cur written) {g : ℕ × List BatchRecord}
    {X : UInt32 → List MemEntry} (hX : ∀ id, (X id).Perm (forFamily id (entriesFrom g.1 g.2)))
    {cf : ColumnFamily} (hcf : cf ∈ db.families) :
    FamilyKept (old ++ [⟨cur.number, cur.groups ++ [g]⟩]) cur.number db.manifestLastSequence
      (written ++ stored db.families (entriesFrom g.1 g.2)) (addMem X cf) := by
  have hkept := h.families cf hcf
  have hlogs := inLogs_write old cur g cf.id
  have hcur : ¬ logsBetween cf.manifestLogNumber cf.logNumber cur.number = true :=
    fun hkeep => (logsBetween_eq_true.mp hkeep).2.not_ge hkept.logNumber
  have hbetween := hlogs (logsBetween cf.manifestLogNumber cf.logNumber)
  rw [if_neg hcur, List.append_nil, hkept.between] at hbetween
  have hnew : (X cf.id).Perm
      (forFamily cf.id (stored db.families (entriesFrom g.1 g.2))) := by
    rw [forFamily_stored hcf]
    exact hX cf.id
  exact
    { manifest := hkept.manifest
      logNumber := hkept.logNumber
      imm := hkept.imm
      segments := hkept.segments.write hkept.logNumber hkept.imm hlogs (hX cf.id)
      between := hbetween
      flushed := hkept.flushed
      contents := by
        have hboth := hkept.contents.append hnew
        rw [← forFamily_append] at hboth
        simpa only [addMem, List.append_assoc] using hboth }

theorem wrote (h : Durable db old cur written) {rs : List BatchRecord}
    (hshort : ∀ r ∈ rs, r.Short)
    (hrs : ∀ r ∈ rs, r.Acceptable (LogReplay.recoveryOptions 0) db.families)
    (hleft : db.lastSequence + countOf rs + 1 < kMaxSequenceNumber)
    {X : UInt32 → List MemEntry}
    (hX : ∀ id, (X id).Perm (forFamily id (entriesFrom (db.lastSequence + 1) rs))) :
    Durable (db.wrote rs X) old ⟨cur.number, cur.groups ++ [(db.lastSequence + 1, rs)]⟩
      (written ++ stored db.families (entriesFrom (db.lastSequence + 1) rs)) := by
  have hcat := catalog_addMem db.families X
  have hids := catalog_kept hcat
  have hgroups : groupsOf (old ++ [⟨cur.number, cur.groups ++ [(db.lastSequence + 1, rs)]⟩]) =
      groupsOf (old ++ [cur]) ++ [(db.lastSequence + 1, rs)] := by
    rw [groupsOf_concat, groupsOf_concat, List.append_assoc]
  have hend : groupEnd (db.lastSequence + 1, rs) = db.lastSequence + countOf rs + 1 :=
    Nat.add_right_comm _ _ _
  have hbehind : ∀ p ∈ stored db.families (entriesFrom (db.lastSequence + 1) rs),
      p ∈ entriesFrom (db.lastSequence + 1) rs ∧ p.1 ∈ db.families.map ColumnFamily.id := by
    intro p hp
    obtain ⟨hentry, hid⟩ := List.mem_filter.mp hp
    exact ⟨hentry, List.contains_iff_mem.mp hid⟩
  exact
    { oldLogs := h.oldLogs
      log := by
        have hsequence : u64 (db.lastSequence + 1) = db.lastSequence + 1 :=
          Nat.mod_eq_of_lt (h.left.trans (by rw [kMaxSequenceNumber]; omega))
        rw [WriteDb.wrote, hsequence, h.log]
        simp [LoggedGroups.live]
      numbers := h.numbers
      positive := h.positive_of_number rfl
      replayable := fun g hg => by
        rw [hgroups] at hg
        rcases List.mem_append.mp hg with hold | hnew
        · exact (h.replayable g hold).of_catalog hcat
        · obtain rfl := List.mem_singleton.mp hnew
          exact ⟨hshort, fun r hr => (hrs r hr).of_catalog hcat, hend ▸ hleft⟩
      ends := fun g hg => by
        rw [hgroups] at hg
        rcases List.mem_append.mp hg with hold | hnew
        · exact (h.ends g hold).trans (Nat.add_le_add_right (Nat.le_add_right _ _) 1)
        · obtain rfl := List.mem_singleton.mp hnew
          exact hend.le
      inOrder := by
        rw [hgroups]
        refine List.pairwise_append.mpr ⟨h.inOrder, List.pairwise_singleton _ _, ?_⟩
        intro g hg g' hg'
        obtain rfl := List.mem_singleton.mp hg'
        exact h.ends g hg
      manifest := fun cf hcf => by
        obtain ⟨f, hf, rfl⟩ := List.mem_map.mp hcf
        exact h.manifest f hf
      filesFirst := fun cf hcf e he g hg => by
        obtain ⟨f, hf, rfl⟩ := List.mem_map.mp hcf
        rcases List.mem_append.mp hg with hold | hnew
        · exact h.filesFirst f hf e he g hold
        · rw [List.mem_singleton.mp hnew]
          exact Nat.lt_succ_of_le (((h.families f hf).flushed e he).trans h.sequence)
      sequence := h.sequence.trans (Nat.le_add_right _ _)
      left := hleft
      ids := hids ▸ h.ids
      families := fun cf hcf => by
        obtain ⟨f, hf, rfl⟩ := List.mem_map.mp hcf
        exact h.wrote_kept hX hf
      known := fun p hp => by
        change p.1 ∈ (db.families.map (addMem X)).map ColumnFamily.id
        rw [hids]
        rcases List.mem_append.mp hp with hold | hnew
        · exact h.known p hold
        · exact (hbehind p hnew).2
      increasing := by
        rw [List.map_append, List.pairwise_append]
        refine ⟨h.increasing, ?_, ?_⟩
        · rw [List.pairwise_map]
          exact (increasing_entriesFrom rs _).sublist List.filter_sublist
        · intro a ha b hb
          obtain ⟨p, hp, rfl⟩ := List.mem_map.mp ha
          obtain ⟨q, hq, rfl⟩ := List.mem_map.mp hb
          have hpast := h.below p hp
          have hnow := (seq_of_mem_entriesFrom (hbehind q hq).1).1
          omega
      below := fun p hp => by
        change p.2.seq ≤ db.lastSequence + countOf rs
        rcases List.mem_append.mp hp with hold | hnew
        · exact (h.below p hold).trans (Nat.le_add_right _ _)
        · have hlt := (seq_of_mem_entriesFrom (hbehind p hnew).1).2
          omega }

/-! ### Flushes and the manifest -/

/-- The manifest is written, and column families are changed as it says. -/
theorem settle (h : Durable db old cur written) {g : ColumnFamily → ColumnFamily}
    (hcat : catalog (db.families.map g) = catalog db.families)
    (hg : ∀ cf ∈ db.families,
      FamilyKept (old ++ [cur]) cur.number db.lastSequence written (g cf))
    (hfiles : ∀ cf ∈ db.families, ∀ e ∈ (g cf).flushed, ∀ r ∈ cur.groups, e.seq < r.1) :
    Durable { db with families := db.families.map g, manifestLastSequence := db.lastSequence }
      old cur written :=
  { oldLogs := h.oldLogs
    log := h.log
    numbers := h.numbers
    positive := h.positive
    replayable := fun g' hg' => (h.replayable g' hg').of_catalog hcat
    ends := h.ends
    inOrder := h.inOrder
    manifest := fun _ _ l hl _ g' hg' => h.ends g' (List.mem_flatMap.mpr
      ⟨l, List.mem_append_left _ hl, hg'⟩)
    filesFirst := fun cf hcf => by
      obtain ⟨f, hf, rfl⟩ := List.mem_map.mp hcf
      exact hfiles f hf
    sequence := Nat.le_refl _
    left := h.left
    ids := catalog_kept hcat ▸ h.ids
    families := fun cf hcf => by
      obtain ⟨f, hf, rfl⟩ := List.mem_map.mp hcf
      exact hg f hf
    known := fun p hp => by
      change p.1 ∈ (db.families.map g).map ColumnFamily.id
      rw [catalog_kept hcat]
      exact h.known p hp
    increasing := h.increasing
    below := h.below }

theorem writeManifest (h : Durable db old cur written) :
    Durable db.writeManifest old cur written := by
  refine h.settle (catalog_map fun _ => ⟨rfl, rfl, rfl⟩) (fun cf hcf => ?_) h.filesFirst
  have hkept := (h.families cf hcf).settled h.sequence
  exact { hkept with
    manifest := Nat.le_refl _
    between := inLogs_between_self _ _ _ }

/-- What is in immutable memtables was written before the groups in the current log. -/
theorem imm_first (h : Durable db old cur written) {cf : ColumnFamily} (hcf : cf ∈ db.families)
    {e : MemEntry} (he : e ∈ cf.imm.flatMap Prod.fst) : ∀ g ∈ cur.groups, e.seq < g.1 := by
  intro g hg
  have hkept := h.families cf hcf
  obtain ⟨l, hl, hlt, hentry⟩ := hkept.segments.mem_imm hkept.imm he
  have hold : l ∈ old := by
    rcases List.mem_append.mp hl with hold | hcur
    · exact hold
    · rw [List.mem_singleton.mp hcur] at hlt
      exact absurd hlt (lt_irrefl _)
  obtain ⟨g', hg', hentry⟩ := List.mem_flatMap.mp hentry
  have horder := h.inOrder
  rw [groupsOf_concat] at horder
  have hend := (List.pairwise_append.mp horder).2.2 g'
    (List.mem_flatMap.mpr ⟨l, hold, hg'⟩) g hg
  exact (seq_of_mem_entriesFrom hentry).2.trans_le hend

theorem commitFlush_first (h : Durable db old cur written) {cf : ColumnFamily}
    (hcf : cf ∈ db.families) (n : ℕ) :
    ∀ e ∈ (WriteDb.commitFlush cf n).flushed, ∀ g ∈ cur.groups, e.seq < g.1 := by
  rw [WriteDb.commitFlush]
  split
  · exact h.filesFirst cf hcf
  · intro e he
    rcases List.mem_append.mp he with hold | hnew
    · exact h.filesFirst cf hcf e hold
    · obtain ⟨p, hp, hmem⟩ := List.mem_flatMap.mp hnew
      exact h.imm_first hcf (List.mem_flatMap.mpr ⟨p, List.mem_of_mem_take hp, hmem⟩)

theorem commitFlush_kept (h : Durable db old cur written) {cf : ColumnFamily}
    (hcf : cf ∈ db.families) (n : ℕ) :
    FamilyKept (old ++ [cur]) cur.number db.lastSequence written
      (WriteDb.commitFlush cf n) := by
  have hkept := h.families cf hcf
  cases hlast : (cf.imm.take n).getLast? with
  | none =>
      rw [WriteDb.commitFlush, hlast]
      exact hkept.settled h.sequence
  | some p =>
      have hflush : WriteDb.commitFlush cf n = { cf with
          flushed := cf.flushed ++ (cf.imm.take n).flatMap Prod.fst
          imm := cf.imm.drop n
          logNumber := p.2
          manifestLogNumber := p.2 } := by
        rw [WriteDb.commitFlush, hlast]
      have hp : p ∈ cf.imm := List.mem_of_mem_take (List.mem_of_getLast? hlast)
      have himm : cf.imm.flatMap Prod.fst =
          (cf.imm.take n).flatMap Prod.fst ++ (cf.imm.drop n).flatMap Prod.fst := by
        rw [← List.flatMap_append, List.take_append_drop]
      rw [hflush]
      exact
        { manifest := Nat.le_refl _
          logNumber := hkept.imm p hp
          imm := fun q hq => hkept.imm q (List.mem_of_mem_drop hq)
          segments := hkept.segments.flushed hlast
          between := inLogs_between_self _ _ _
          flushed := fun e he => by
            rcases List.mem_append.mp he with hold | hnew
            · exact (hkept.flushed e hold).trans h.sequence
            · have hmem : e ∈ cf.imm.flatMap Prod.fst ++ cf.mem := by
                rw [himm]
                exact List.mem_append_left _ (List.mem_append_left _ hnew)
              exact Nat.le_of_lt_succ (hkept.seq_lt h.ends hmem)
          contents := by
            have hcontents := hkept.contents
            rw [himm] at hcontents
            simpa only [List.append_assoc] using hcontents }

theorem flush (h : Durable db old cur written) (id : UInt32) (n : ℕ) :
    Durable (db.flush id n) old cur written := by
  refine h.settle (catalog_map fun cf => ?_) (fun cf hcf => ?_) fun cf hcf => ?_
  · by_cases hid : cf.id = id
    · rw [if_pos hid, WriteDb.commitFlush]
      split <;> exact ⟨rfl, rfl, rfl⟩
    · rw [if_neg hid]
      exact ⟨rfl, rfl, rfl⟩
  · by_cases hid : cf.id = id
    · rw [if_pos hid]
      exact h.commitFlush_kept hcf n
    · rw [if_neg hid]
      exact (h.families cf hcf).settled h.sequence
  · by_cases hid : cf.id = id
    · rw [if_pos hid]
      exact h.commitFlush_first hcf n
    · rw [if_neg hid]
      exact h.filesFirst cf hcf

/-! ### New logs, and logs that are removed -/

theorem inLogs_new (keep : ℕ → Bool) (id : UInt32) (ls : List LoggedGroups) (n : ℕ) :
    inLogs keep id (ls ++ [⟨n, []⟩]) = inLogs keep id ls := by
  have hnone : inLogs keep id [⟨n, []⟩] = [] := by
    rw [inLogs_eq_nil]
    simp [LoggedGroups.entries, forFamily]
  rw [inLogs_append, hnone, List.append_nil]

/-- A column family that has nothing to flush needs none of the older logs. -/
def needsOnly (n : ℕ) (cf : ColumnFamily) : ColumnFamily :=
  if cf.isFlushed then { cf with logNumber := n } else cf

theorem catalog_needsOnly (families : List ColumnFamily) (n : ℕ) :
    catalog (families.map (needsOnly n)) = catalog families :=
  catalog_map fun cf => by
    rw [needsOnly]
    split_ifs <;> exact ⟨rfl, rfl, rfl⟩

theorem needsOnly_kept (h : Durable db old cur written) {n : ℕ} (hn : cur.number < n)
    {cf : ColumnFamily} (hcf : cf ∈ db.families) :
    FamilyKept (old ++ [cur] ++ [⟨n, []⟩]) n db.manifestLastSequence written
      (needsOnly n cf) := by
  have hkept := h.families cf hcf
  have hold : FamilyKept (old ++ [cur] ++ [⟨n, []⟩]) n db.manifestLastSequence written cf :=
    { hkept with
      logNumber := hkept.logNumber.trans hn.le
      imm := fun p hp => (hkept.imm p hp).trans hn.le
      segments := hkept.segments.congr fun keep _ => inLogs_new keep _ _ n
      between := by rw [inLogs_new, hkept.between] }
  by_cases hflushed : cf.isFlushed = true
  · rw [needsOnly, if_pos hflushed]
    rw [ColumnFamily.isFlushed, Bool.and_eq_true, List.isEmpty_iff, List.isEmpty_iff] at hflushed
    obtain ⟨hmem, himm⟩ := hflushed
    have hnothing : inLogs (fromLog cf.logNumber) cf.id (old ++ [cur]) = [] := by
      have hperm := hkept.segments.perm
      rw [himm, hmem] at hperm
      exact hperm.symm.eq_nil
    refine { hold with
      manifest := hkept.manifest.trans (hkept.logNumber.trans hn.le)
      logNumber := Nat.le_refl _
      segments := ?_
      between := ?_ }
    · dsimp only
      rw [himm, hmem, Segments, inLogs_new]
      refine (List.Perm.of_eq ?_).symm
      rw [inLogs_eq_nil] at hnothing ⊢
      intro l hl hkeep
      exact hnothing l hl (fromLog_eq_true.mpr ((hkept.logNumber.trans hn.le).trans
        (fromLog_eq_true.mp hkeep)))
    · dsimp only
      rw [inLogs_new]
      have hbetween := hkept.between
      rw [inLogs_eq_nil] at hnothing hbetween ⊢
      intro l hl hkeep
      obtain ⟨hle, -⟩ := logsBetween_eq_true.mp hkeep
      by_cases hlt : l.number < cf.logNumber
      · exact hbetween l hl (logsBetween_eq_true.mpr ⟨hle, hlt⟩)
      · exact hnothing l hl (fromLog_eq_true.mpr (not_lt.mp hlt))
  · rw [needsOnly, if_neg hflushed]
    exact hold

/-- A new log begins. -/
theorem beginLog (h : Durable db old cur written) {n : ℕ} (hn : cur.number < n) :
    Durable { db with
        oldLogs := db.oldLogs ++ [db.log]
        log := ⟨n, []⟩
        families := db.families.map (needsOnly n) }
      (old ++ [cur]) ⟨n, []⟩ written := by
  have hcat := catalog_needsOnly db.families n
  have hgroups : groupsOf (old ++ [cur] ++ [⟨n, []⟩]) = groupsOf (old ++ [cur]) := by
    rw [groupsOf_concat, List.append_nil]
  have hmem : ∀ l ∈ old ++ [cur], l.number < n := by
    intro l hl
    rcases List.mem_append.mp hl with hold | hcur
    · exact (h.numbers l hold).trans hn
    · rwa [List.mem_singleton.mp hcur]
  exact
    { h with
      oldLogs := by simp [h.oldLogs, h.log]
      log := rfl
      numbers := hmem
      positive := fun l hl => by
        rcases List.mem_append.mp hl with hold | hnew
        · exact h.positive l hold
        · rw [List.mem_singleton.mp hnew]
          exact Nat.zero_lt_of_lt hn
      replayable := hgroups ▸ fun g hg => (h.replayable g hg).of_catalog hcat
      ends := hgroups ▸ h.ends
      inOrder := hgroups ▸ h.inOrder
      manifest := fun cf hcf l hl hlt => by
        obtain ⟨f, hf, rfl⟩ := List.mem_map.mp hcf
        have hsame : (needsOnly n f).manifestLogNumber = f.manifestLogNumber := by
          rw [needsOnly]
          split_ifs <;> rfl
        rw [hsame] at hlt
        rcases List.mem_append.mp hl with hold | hcur
        · exact h.manifest f hf l hold hlt
        · obtain rfl := List.mem_singleton.mp hcur
          have hkept := h.families f hf
          exact absurd hlt (hkept.manifest.trans hkept.logNumber).not_gt
      filesFirst := fun _ _ _ _ _ hg => absurd hg List.not_mem_nil
      ids := catalog_kept hcat ▸ h.ids
      families := fun cf hcf => by
        obtain ⟨f, hf, rfl⟩ := List.mem_map.mp hcf
        exact h.needsOnly_kept hn hf
      known := fun p hp => by
        change p.1 ∈ (db.families.map (needsOnly n)).map ColumnFamily.id
        rw [catalog_kept hcat]
        exact h.known p hp }

/-- A memtable becomes immutable, in front of the log with this number. -/
def sealMemtable (id : UInt32) (n : ℕ) (cf : ColumnFamily) : ColumnFamily :=
  if cf.id = id then { cf with imm := cf.imm ++ [(cf.mem, n)], mem := [] } else cf

theorem sealMemtable_kept (h : Durable db old cur written) (hcur : cur.groups = [])
    (id : UInt32) {cf : ColumnFamily} (hcf : cf ∈ db.families) :
    FamilyKept (old ++ [cur]) cur.number db.manifestLastSequence written
      (sealMemtable id cur.number cf) := by
  have hkept := h.families cf hcf
  by_cases hid : cf.id = id
  · rw [sealMemtable, if_pos hid]
    have hempty : inLogs (fromLog cur.number) cf.id (old ++ [cur]) = [] := by
      rw [inLogs_eq_nil]
      intro l hl hkeep
      rcases List.mem_append.mp hl with hold | hnew
      · exact absurd (fromLog_eq_true.mp hkeep) (h.numbers l hold).not_ge
      · rw [List.mem_singleton.mp hnew, LoggedGroups.entries, hcur]
        rfl
    exact
      { hkept with
        imm := fun p hp => by
          rcases List.mem_append.mp hp with hold | hnew
          · exact hkept.imm p hold
          · rw [List.mem_singleton.mp hnew]
        segments := hkept.segments.switch hkept.logNumber hkept.imm hempty
        contents := by
          have hcontents := hkept.contents
          simpa using hcontents }
  · rw [sealMemtable, if_neg hid]
    exact hkept

theorem sealed (h : Durable db old cur written) (hcur : cur.groups = []) (id : UInt32) :
    Durable { db with families := db.families.map (sealMemtable id cur.number) }
      old cur written := by
  have hcat : catalog (db.families.map (sealMemtable id cur.number)) = catalog db.families :=
    catalog_map fun cf => by
      rw [sealMemtable]
      split_ifs <;> exact ⟨rfl, rfl, rfl⟩
  exact
    { h with
      replayable := fun g hg => (h.replayable g hg).of_catalog hcat
      manifest := fun cf hcf l hl hlt => by
        obtain ⟨f, hf, rfl⟩ := List.mem_map.mp hcf
        have hsame : (sealMemtable id cur.number f).manifestLogNumber = f.manifestLogNumber := by
          rw [sealMemtable]
          split_ifs <;> rfl
        rw [hsame] at hlt
        exact h.manifest f hf l hl hlt
      filesFirst := fun cf hcf => by
        obtain ⟨f, hf, rfl⟩ := List.mem_map.mp hcf
        have hsame : (sealMemtable id cur.number f).flushed = f.flushed := by
          rw [sealMemtable]
          split_ifs <;> rfl
        rw [hsame]
        exact h.filesFirst f hf
      ids := catalog_kept hcat ▸ h.ids
      families := fun cf hcf => by
        obtain ⟨f, hf, rfl⟩ := List.mem_map.mp hcf
        exact h.sealMemtable_kept hcur id hf
      known := fun p hp => by
        change p.1 ∈ (db.families.map (sealMemtable id cur.number)).map ColumnFamily.id
        rw [catalog_kept hcat]
        exact h.known p hp }

theorem switchMemtable (h : Durable db old cur written) (id : UInt32) {n : ℕ}
    (hn : db.log.number < n) : ∃ old' cur', Durable (db.switchMemtable id n) old' cur' written := by
  have hnumber : cur.number < n := by
    rw [h.log] at hn
    exact hn
  cases hempty : db.log.records.isEmpty with
  | false =>
      refine ⟨old ++ [cur], ⟨n, []⟩, ?_⟩
      have hsealed := (h.beginLog hnumber).sealed rfl id
      rw [WriteDb.switchMemtable]
      simp only [hempty, Bool.not_false, if_true, Bool.true_and]
      exact hsealed
  | true =>
      refine ⟨old, cur, ?_⟩
      have hcur : cur.groups = [] := by
        rw [h.log, LoggedGroups.live, List.isEmpty_iff, List.map_eq_nil_iff] at hempty
        exact hempty
      have hsealed := h.sealed hcur id
      have hlog : db.log.number = cur.number := by
        rw [h.log]
        rfl
      rw [WriteDb.switchMemtable]
      simp only [hempty, Bool.not_true, Bool.false_and, Bool.false_eq_true, if_false,
        List.map_id', hlog]
      exact hsealed

theorem groupsOf_sublist {ls ls' : List LoggedGroups} (h : ls'.Sublist ls) :
    (groupsOf ls').Sublist (groupsOf ls) := h.flatMap LoggedGroups.groups

theorem minLogNumber_le {families : List ColumnFamily} {n : ℕ}
    (h : WriteDb.minLogNumber families = some n) {cf : ColumnFamily} (hcf : cf ∈ families) :
    n ≤ cf.logNumber :=
  (List.min?_eq_some_iff.mp h).2 _ (List.mem_map_of_mem hcf)

theorem removeObsoleteLogs (h : Durable db old cur written) :
    ∃ old', Durable db.removeObsoleteLogs old' cur written := by
  cases hmin : WriteDb.minLogNumber db.families with
  | none =>
      refine ⟨old, ?_⟩
      rw [WriteDb.removeObsoleteLogs, hmin]
      exact h
  | some n =>
      refine ⟨old.filter fun l => n ≤ l.number, ?_⟩
      have hsublist : (old.filter fun l => n ≤ l.number).Sublist old := List.filter_sublist
      have hall := hsublist.append (List.Sublist.refl [cur])
      have hgroups := groupsOf_sublist hall
      have hlogs : ∀ (id : UInt32) (keep : ℕ → Bool), (∀ m, keep m = true → n ≤ m) →
          inLogs keep id ((old.filter fun l => n ≤ l.number) ++ [cur]) =
            inLogs keep id (old ++ [cur]) := by
        intro id keep hkeep
        rw [inLogs_append, inLogs_append, inLogs_filter (p := fun m => decide (n ≤ m))
          fun m hm => decide_eq_true (hkeep m hm)]
      have hdb : db.removeObsoleteLogs =
          { db with oldLogs := db.oldLogs.filter fun log => n ≤ log.number } := by
        rw [WriteDb.removeObsoleteLogs, hmin]
      rw [hdb]
      exact
        { h with
          oldLogs := by
            dsimp only
            rw [h.oldLogs, List.filter_map]
            rfl
          numbers := fun l hl => h.numbers l (hsublist.subset hl)
          positive := fun l hl => h.positive l (hall.subset hl)
          replayable := fun g hg => h.replayable g (hgroups.subset hg)
          ends := fun g hg => h.ends g (hgroups.subset hg)
          inOrder := h.inOrder.sublist hgroups
          manifest := fun cf hcf l hl => h.manifest cf hcf l (hsublist.subset hl)
          families := fun cf hcf => by
            have hkept := h.families cf hcf
            have hbetween := hkept.between
            rw [inLogs_eq_nil] at hbetween
            exact
              { hkept with
                segments := hkept.segments.congr fun keep hkeep =>
                  hlogs cf.id keep fun m hm => (minLogNumber_le hmin hcf).trans (hkeep m hm)
                between := inLogs_eq_nil.mpr fun l hl => hbetween l (hall.subset hl) } }

end Durable

end Tweezer
