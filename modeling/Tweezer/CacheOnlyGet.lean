import Tweezer.MultiGetAgrees

/-!
# Lookups that read no file

`BlockBasedTable::Get` of `table/block_based/block_based_table_reader.cc` with a filter, with
either read tier, and with fetches of data blocks that can fail. A block iterator that carries
the status of a failed fetch has no key table, and `check_corruption` is called before the status
is looked at.
-/

namespace Tweezer

/-- A status that is not OK. -/
abbrev FailedStatus := { s : Status // s ≠ .ok }

/-- The data blocks that cannot be fetched, and with which status: their reads fail, or the
compression dictionary is missing. -/
abbrev FetchFailures := BlockHandle → Option FailedStatus

/-- What the filter of a table says of a user key; one that is block-based has bits of its own for
the data block at an offset. -/
inductive FilterBits where
  | none
  | full (mayMatch : Bytes → Bool)
  | blockBased (mayMatch : Bytes → ℕ → Bool)

/-- The filter that a lookup uses, and whether it is at hand without a read. -/
structure TableFilter where
  bits : FilterBits
  isLoaded : Bool

namespace TableFilter

variable (filter : TableFilter) (noIo : Bool) (key : Bytes)

/-- `FullFilterKeyMayMatch`. -/
def fullFilterKeyMayMatch : Bool :=
  match filter.bits with
  | .full mayMatch => (noIo && !filter.isLoaded) || mayMatch (extractUserKey key)
  | _ => true

/-- `KeyMayMatch` of a block-based filter, for the data block at this offset. -/
def keyMayMatch (offset : ℕ) : Bool :=
  match filter.bits with
  | .blockBased mayMatch => (noIo && !filter.isLoaded) || mayMatch (extractUserKey key) offset
  | _ => true

end TableFilter

/-- What `Get` leaves: its status, whether the key is marked as one that may exist, and what
`SaveValue` has kept. -/
structure GetResult (σ : Type) where
  status : Status
  mayExist : Bool
  saved : σ

namespace PointReader

variable (R : PointReader) (filter : TableFilter) (failures : FetchFailures) {σ : Type}
  (saveValue : SaveValue σ) (ro : LookupOptions) (noIo : Bool)

/-- `RetrieveBlock`, with the status where there is no block. -/
def fetchBlock (handle : BlockHandle) (st : CacheState) :
    Outcome (Except Status Blocklike × CacheState) :=
  match failures handle with
  | some s => .ok (.error s.val, st)
  | none => do
      let (block, st') ← R.retrieveBlock true (ro.call handle noIo) st
      match block with
      | some block => .ok (.ok block, st')
      | none =>
          if noIo && (st.reader.getDataBlockFromCache R.env R.options (ro.call handle noIo)).1 then
            .ok (.error (.incomplete "no blocking io"), st')
          else .ok (.error (.corruption "data block"), st')

/-- `NewDataBlockIterator`. -/
def blockIterator (handle : BlockHandle) (st : CacheState) :
    Outcome (EncryptedDataBlockIter × CacheState) := do
  let (block, st) ← R.fetchBlock failures ro noIo handle st
  match block with
  | .error s => .ok (EncryptedDataBlockIter.fresh.invalidate s, st)
  | .ok block => do
      let biter ← R.initBlockIterator block
      .ok (biter, st)

/-- The loop of `Get` over the data blocks, for at most `fuel` of them. -/
def readBlocks (key : Bytes) : ℕ → IndexBlockIter → CacheState → Status → σ →
    Outcome (IndexBlockIter × GetResult σ)
  | 0, _, _, _, _ => .error .diverged
  | fuel + 1, iiter, st, status, s =>
      if iiter.valid then do
        let handle ← iiter.value
        if filter.keyMayMatch noIo key handle.offset then do
          let (biter, st) ← R.blockIterator failures ro noIo handle st
          checkBlock true iiter biter
          if noIo && biter.status.isIncomplete then .ok (iiter, ⟨status, true, s⟩)
          else if biter.status ≠ .ok then .ok (iiter, ⟨biter.status, false, s⟩)
          else do
            let (done, biter, s) ← R.searchBlock saveValue fuel biter key s
            if done then .ok (iiter, ⟨biter.status, false, s⟩)
            else do
              let iiter ← iiter.next
              readBlocks key fuel iiter st biter.status s
        else .ok (iiter, ⟨status, false, s⟩)
      else .ok (iiter, ⟨status, false, s⟩)

/-- `Get`; `noIo` stands for the read tier `kBlockCacheTier`. -/
def tieredGet (fuel : ℕ) (st : CacheState) (key : Bytes) (s : σ) : Outcome (GetResult σ) :=
  if filter.fullFilterKeyMayMatch noIo key then do
    let iiter ← R.index.seek R.comparator key
    let (iiter, r) ← R.readBlocks filter failures saveValue ro noIo key fuel iiter st .ok s
    .ok { r with status := finalStatus r.status iiter }
  else .ok ⟨.ok, false, s⟩

/-- A block cache has the block. -/
def inCache (reader : ReaderState) (handle : BlockHandle) : Bool :=
  (R.options.blockCache && (reader.blockCache handle).isSome) ||
    (R.options.blockCacheCompressed && (reader.blockCacheCompressed handle).isSome)

/-- The status with which the fetch of a block fails. -/
def fetchFailure (reader : ReaderState) (handle : BlockHandle) : Option FailedStatus :=
  match failures handle with
  | some s => some s
  | none =>
      if noIo && !R.inCache reader handle then
        some ⟨.incomplete "no blocking io", fun h => nomatch h⟩
      else none

end PointReader

/-! ### The blocks that a lookup comes to -/

section Candidates

variable {σ : Type} (saveValue : SaveValue σ) {u : Comparator} (reads reads' : BlockHandle → Bool)
  (key : InternalKey)

/-- The data blocks that a lookup fetches, as long as none fails: it goes on while the filter lets
it, until `SaveValue` has seen enough. -/
def candidates : List (TableBlock u × BlockHandle) → σ → List (TableBlock u × BlockHandle)
  | [], _ => []
  | b :: bs, s =>
      if reads b.2 then
        b :: if (lookupEntries saveValue u b.1.contents.entries key s).1 then []
          else candidates bs (lookupEntries saveValue u b.1.contents.entries key s).2
      else []

variable {reads reads' key}

/-- A filter that rejects more ends the lookup earlier. -/
theorem candidates_prefix (h : ∀ handle, reads handle = true → reads' handle = true)
    (bs : List (TableBlock u × BlockHandle)) (s : σ) :
    candidates saveValue reads key bs s <+: candidates saveValue reads' key bs s := by
  induction bs generalizing s with
  | nil => exact List.prefix_rfl
  | cons b bs ih =>
      rw [candidates, candidates]
      by_cases hb : reads b.2 = true
      · rw [if_pos hb, if_pos (h _ hb), List.prefix_cons_inj]
        split_ifs
        · exact List.prefix_rfl
        · exact ih _
      · rw [if_neg hb]
        exact List.nil_prefix

theorem candidates_prefix_self (bs : List (TableBlock u × BlockHandle)) (s : σ) :
    candidates saveValue reads key bs s <+: bs := by
  induction bs generalizing s with
  | nil => exact List.prefix_rfl
  | cons b bs ih =>
      rw [candidates]
      split_ifs
      · exact (List.prefix_cons_inj b).mpr List.nil_prefix
      · exact (List.prefix_cons_inj b).mpr (ih _)
      · exact List.nil_prefix

/-- Where the blocks that the filter keeps away have nothing of the key, the candidates decide
what is kept. -/
theorem lookupBlocks_candidates (bs : List (TableBlock u × BlockHandle)) (s : σ)
    (hskip : ∀ b rest, b :: rest <:+ bs → reads b.2 = false →
      ∀ s, lookupBlocks saveValue key ((b :: rest).map Prod.fst) s = s) :
    lookupBlocks saveValue key ((candidates saveValue reads key bs s).map Prod.fst) s =
      lookupBlocks saveValue key (bs.map Prod.fst) s := by
  induction bs generalizing s with
  | nil => rfl
  | cons b bs ih =>
      rw [candidates]
      by_cases hb : reads b.2 = true
      · rw [if_pos hb, List.map_cons, List.map_cons, lookupBlocks, lookupBlocks]
        split_ifs
        · rfl
        · apply ih
          intro b' rest hsuffix
          exact hskip b' rest (hsuffix.trans (List.suffix_cons _ _))
      · rw [if_neg hb, hskip b bs List.suffix_rfl (Bool.eq_false_of_not_eq_true hb)]
        rfl

/-- The checks of the blocks at the front are among those of all blocks. -/
theorem ChecksPass.of_prefix {bs cs : List (TableBlock u)} (hfront : bs <+: cs)
    {iiter : IndexBlockIter} {s : σ} (h : ChecksPass saveValue key cs iiter s) :
    ChecksPass saveValue key bs iiter s := by
  induction bs generalizing cs iiter s with
  | nil => trivial
  | cons b bs ih =>
      obtain ⟨cs, rfl⟩ := hfront
      exact ⟨h.1, fun hdone it hit => ih (List.prefix_append bs cs) (h.2 hdone it hit)⟩

end Candidates

namespace OpenTable

variable (T : OpenTable) (filter : TableFilter) (failures : FetchFailures) {σ : Type}
  (saveValue : SaveValue σ) (ro : LookupOptions) (noIo : Bool) (st : CacheState)
  (key : InternalKey) (s : σ)

/-- The data blocks from an entry of the index on, with their handles. -/
def handlesFrom (pos : Option ℕ) : List (TableBlock T.comparator × BlockHandle) :=
  match pos with
  | some i => (T.table.written T.tableOptions).drop i
  | none => []

/-- The data blocks that `Get` fetches for a key. -/
def candidates : List (TableBlock T.comparator × BlockHandle) :=
  if filter.fullFilterKeyMayMatch noIo key.val then
    Tweezer.candidates saveValue (fun handle => filter.keyMayMatch noIo key.val handle.offset) key
      (T.handlesFrom (T.firstBlock key)) s
  else []

/-- The filter has no false negatives: what it keeps a lookup from adds nothing. -/
structure Filters : Prop where
  full : ∀ mayMatch, filter.bits = .full mayMatch → mayMatch (extractUserKey key.val) = false →
    ∀ s, lookupBlocks saveValue key (T.blocksFrom (T.firstBlock key)) s = s
  blockBased : ∀ mayMatch, filter.bits = .blockBased mayMatch → ∀ b rest,
    b :: rest <:+ T.handlesFrom (T.firstBlock key) →
      mayMatch (extractUserKey key.val) b.2.offset = false →
        ∀ s, lookupBlocks saveValue key ((b :: rest).map Prod.fst) s = s

/-- The status with which the first fetch of a lookup fails that does. -/
def firstFailure : Option FailedStatus :=
  (T.candidates filter saveValue noIo key s).findSome? fun b =>
    T.fetchFailure failures noIo st.reader b.2

/-- `check_corruption` lets every data block pass that the lookup fetches. -/
def CandidatesChecked : Prop :=
  ∀ iiter, T.index.seek T.comparator key.val = .ok iiter →
    ChecksPass saveValue key ((T.candidates filter saveValue noIo key s).map Prod.fst) iiter s

/-- A lookup in the block cache tier ends, with the result of one that may read the file or with
the mark; and where a fetch fails a lookup ends with that status, or with the mark if all that it
misses is a read. -/
def GetsSoundly : Prop :=
  (noIo = true → ∃ r, Outcome.Settles
      (fun fuel => T.tieredGet filter failures saveValue ro true fuel st key.val s) r ∧
    (r.mayExist = true ∨ ∃ r', Outcome.Settles
      (fun fuel => T.tieredGet filter (fun _ => none) saveValue ro false fuel st key.val s) r' ∧
        r'.status = r.status ∧ r'.saved = r.saved)) ∧
  ∀ f, T.firstFailure filter failures saveValue noIo st key s = some f → ∃ r, Outcome.Settles
      (fun fuel => T.tieredGet filter failures saveValue ro noIo fuel st key.val s) r ∧
    (r.status = f.val ∨ noIo = true ∧ f.val.isIncomplete = true ∧ r.mayExist = true)

end OpenTable

namespace PointReader

variable {R : PointReader} {alignment : Option ℕ} {blocks : List SstBlock} {b : SstBlock}
  {reader reader' : ReaderState} {c : ReaderCall} {block : Bytes}

/-- A block that is in a cache and is put in one of them changes nothing for any block. -/
theorem inCache_insertBlock (hc : R.inCache reader c.handle = true) (block : Bytes)
    (handle : BlockHandle) :
    R.inCache (reader.insertBlock R.options c block) handle = R.inCache reader handle := by
  unfold ReaderState.insertBlock
  split_ifs with hcache
  · by_cases hh : handle = c.handle
    · rw [hh, hc, inCache, hcache]
      dsimp only
      rw [Function.update_self]
      rfl
    · rw [inCache]
      dsimp only
      rw [Function.update_of_ne hh, ← inCache]
  · rfl

theorem getDataBlockFromCache_hit (h : reader.Sound R.env R.options alignment blocks)
    (hat : SstBlock.At R.env alignment blocks c.handle b)
    (hc : R.inCache reader c.handle = true) : ∃ block reader',
      reader.getDataBlockFromCache R.env R.options c = (true, some block, reader') ∧
        ∀ handle, R.inCache reader' handle = R.inCache reader handle := by
  unfold ReaderState.getDataBlockFromCache
  split
  · exact ⟨_, _, rfl, fun _ => rfl⟩
  · next hmiss =>
    have hplain : (R.options.blockCache && (reader.blockCache c.handle).isSome) = false := by
      rw [Bool.and_eq_false_iff, Bool.eq_false_iff, Bool.eq_false_iff]
      by_contra! hboth
      obtain ⟨block, hblock⟩ := Option.isSome_iff_exists.mp hboth.2
      exact hmiss block hboth.1 hblock
    have hcompressed := hc
    rw [inCache, hplain, Bool.false_or, Bool.and_eq_true] at hcompressed
    obtain ⟨raw, hraw⟩ := Option.isSome_iff_exists.mp hcompressed.2
    obtain ⟨hsome, -⟩ := h.blockCacheCompressed _ b hat raw hraw
    obtain ⟨block, hblock⟩ := Option.isSome_iff_exists.mp hsome
    rw [hcompressed.1, hraw]
    dsimp only
    rw [hblock]
    refine ⟨block, _, rfl, fun handle => ?_⟩
    split_ifs
    · exact inCache_insertBlock hc block handle
    · rfl

theorem getDataBlockFromCache_miss (hc : R.inCache reader c.handle = false) :
    reader.getDataBlockFromCache R.env R.options c = (true, none, reader) := by
  rw [inCache, Bool.or_eq_false_iff] at hc
  unfold ReaderState.getDataBlockFromCache
  split
  · next hcache hblock =>
    rw [hcache, hblock] at hc
    cases hc.1
  · split
    · next hcache hblock =>
      rw [hcache, hblock] at hc
      cases hc.2
    · rfl

/-- Where there is a cache, `MaybeReadBlockAndLoadToCache` gives what it has, and reads nothing
if no read is allowed. -/
theorem maybeReadBlockAndLoadToCache_eq {found : Option Bytes}
    (hget : reader.getDataBlockFromCache R.env R.options c = (true, found, reader'))
    (h : found.isSome = true ∨ c.noIo = true) :
    (reader.maybeReadBlockAndLoadToCache R.env R.options c .data) =
      (.ok (true, found), reader') := by
  unfold ReaderState.maybeReadBlockAndLoadToCache
  by_cases hnone : R.options.blockCache = false ∧ R.options.blockCacheCompressed = false
  · have hempty : reader.getDataBlockFromCache R.env R.options c = (true, none, reader) := by
      unfold ReaderState.getDataBlockFromCache
      rw [hnone.1, hnone.2]
    rw [if_pos hnone]
    cases hget.symm.trans hempty
    rfl
  · rw [if_neg hnone, hget]
    dsimp only
    rw [if_neg]
    rintro ⟨hnot, hio, -⟩
    rcases h with hsome | hno
    · cases found with
      | none => cases hsome
      | some block => cases hnot
    · exact absurd (hno.symm.trans hio) Bool.false_ne_true.symm

/-- What is found in a cache is retrieved with either read tier. -/
theorem retrieveBlock_hit
    (hget : reader.getDataBlockFromCache R.env R.options c = (true, some block, reader')) :
    reader.retrieveBlock R.env R.options c .data true = (.ok (some block), reader') := by
  unfold ReaderState.retrieveBlock
  rw [if_pos rfl, maybeReadBlockAndLoadToCache_eq hget (Or.inl rfl)]

theorem retrieveBlock_miss (hno : c.noIo = true)
    (hget : reader.getDataBlockFromCache R.env R.options c = (true, none, reader)) :
    reader.retrieveBlock R.env R.options c .data true = (.ok none, reader) := by
  unfold ReaderState.retrieveBlock
  rw [if_pos rfl, maybeReadBlockAndLoadToCache_eq hget (Or.inr hno)]
  dsimp only
  rw [ReaderState.readUncached, if_pos hno]

variable {failures : FetchFailures} {handle : BlockHandle} {st : CacheState}

theorem fetchBlock_hit (ro : LookupOptions) (hfail : failures handle = none)
    (hget : st.reader.getDataBlockFromCache R.env R.options (ro.call handle true) =
      (true, some block, reader')) : ∃ block st', st'.reader = reader' ∧
        ∀ noIo, R.fetchBlock failures ro noIo handle st = .ok (.ok block, st') := by
  obtain ⟨isEncrypted, hcached⟩ : ∃ e : Bool, e =
      if R.options.blockCache && (st.reader.blockCache handle).isSome then !st.plain handle
      else true := ⟨_, rfl⟩
  refine ⟨⟨isEncrypted, block⟩, ⟨reader', Function.update st.plain handle (!isEncrypted)⟩, rfl, ?_⟩
  intro noIo
  have hcall : st.reader.getDataBlockFromCache R.env R.options (ro.call handle noIo) =
      (true, some block, reader') := hget
  unfold fetchBlock
  rw [hfail]
  dsimp only
  unfold PointReader.retrieveBlock
  rw [retrieveBlock_hit hcall, hcached]
  rfl

/-- Where reads are allowed and none fails, the iterator is that of the lookups before. -/
theorem blockIterator_io (ro : LookupOptions) (hfail : failures handle = none) :
    R.blockIterator failures ro false handle st = R.newDataBlockIterator ro handle st := by
  unfold blockIterator fetchBlock newDataBlockIterator
  rw [hfail]
  dsimp only
  rcases R.retrieveBlock true (ro.call handle false) st with e | ⟨_ | block, st'⟩
  · rfl
  · rfl
  · rfl

/-- Without a filter, where reads are allowed and none fails, the loop is that of the lookups
before. -/
theorem readBlocks_io {σ : Type} (saveValue : SaveValue σ) (ro : LookupOptions) (isLoaded : Bool)
    (key : Bytes) (fuel : ℕ) (iiter : IndexBlockIter) (st : CacheState) (status : Status) (s : σ) :
    R.readBlocks ⟨.none, isLoaded⟩ (fun _ => none) saveValue ro false key fuel iiter st status s =
      R.searchBlocks saveValue ro true key fuel iiter st status s >>= fun r =>
        .ok (r.2.1, ⟨r.1, false, r.2.2.2⟩) := by
  induction fuel generalizing iiter st status s with
  | zero => rfl
  | succ fuel ih =>
      have hreads : ∀ offset, TableFilter.keyMayMatch ⟨.none, isLoaded⟩ false key offset = true :=
        fun _ => rfl
      rw [readBlocks, searchBlocks]
      by_cases hvalid : iiter.valid = true
      · rw [if_pos hvalid, if_pos hvalid, bind_assoc]
        refine congrArg _ (funext fun handle => ?_)
        rw [if_pos (hreads _), blockIterator_io ro rfl, bind_assoc]
        refine congrArg _ (funext fun opened => ?_)
        dsimp only
        rw [bind_assoc]
        refine congrArg _ (funext fun _ => ?_)
        by_cases hstatus : opened.1.status = .ok
        · rw [if_neg (by rw [Bool.false_and]; exact Bool.false_ne_true),
            if_neg (not_not.mpr hstatus), if_neg (not_not.mpr hstatus), bind_assoc]
          refine congrArg _ (funext fun found => ?_)
          split_ifs
          · rfl
          · rw [bind_assoc]
            exact congrArg _ (funext fun iiter' => ih iiter' ..)
        · rw [if_neg (by rw [Bool.false_and]; exact Bool.false_ne_true), if_pos hstatus,
            if_pos hstatus]
          rfl
      · rw [if_neg hvalid, if_neg hvalid]
        rfl

/-- `Get` with a filter, failing fetches and read tiers is the one before where there are none. -/
theorem tieredGet_io {σ : Type} (R : PointReader) (saveValue : SaveValue σ) (ro : LookupOptions)
    (isLoaded : Bool) (fuel : ℕ) (st : CacheState) (key : Bytes) (s : σ) :
    R.tieredGet ⟨.none, isLoaded⟩ (fun _ => none) saveValue ro false fuel st key s =
      R.get saveValue ro fuel st key s >>= fun r => .ok ⟨r.1, false, r.2⟩ := by
  have hfull : TableFilter.fullFilterKeyMayMatch ⟨.none, isLoaded⟩ false key = true := rfl
  rw [tieredGet, if_pos hfull, get, bind_assoc]
  refine congrArg _ (funext fun iiter => ?_)
  rw [readBlocks_io, bind_assoc, bind_assoc]
  rfl

end PointReader

namespace OpenTable

variable {T : OpenTable} {filter : TableFilter} {failures : FetchFailures} {σ : Type}
  {saveValue : SaveValue σ} {ro : LookupOptions} {noIo : Bool} {st : CacheState}
  {key : InternalKey} {s : σ} {i : ℕ} {iiter : IndexBlockIter}
  {b : TableBlock T.comparator × BlockHandle}

/-- In the block cache tier no block gets into the caches that was not in one of them. -/
def SameCached (T : OpenTable) (noIo : Bool) (st st' : CacheState) : Prop :=
  noIo = true → ∀ handle, T.inCache st'.reader handle = T.inCache st.reader handle

theorem fetchFailure_congr (h : SameCached T noIo st st') (handle : BlockHandle) :
    T.fetchFailure failures noIo st'.reader handle =
      T.fetchFailure failures noIo st.reader handle := by
  unfold PointReader.fetchFailure
  cases noIo with
  | false => rfl
  | true => rw [h rfl]

/-- A fetch that does not fail gives the block as it was written. -/
theorem blockIterator_fetched (ro : LookupOptions) (hst : T.Serves st)
    (hb : b ∈ T.table.written T.tableOptions)
    (hfetch : T.fetchFailure failures noIo st.reader b.2 = none) :
    ∃ st', T.blockIterator failures ro noIo b.2 st = .ok
        (openedIter T.env.sstKey (T.written b.1) T.globalSeqno b.1.contents.entries, st') ∧
      T.Serves st' ∧ SameCached T noIo st st' := by
  obtain ⟨biter, st', hopen, hserves, rfl⟩ := newDataBlockIterator_spec ro hst hb
  unfold PointReader.fetchFailure at hfetch
  cases hfail : failures b.2 with
  | some f =>
      rw [hfail] at hfetch
      cases hfetch
  | none =>
      rw [← PointReader.blockIterator_io ro hfail] at hopen
      cases noIo with
      | false => exact ⟨st', hopen, hserves, by rintro ⟨⟩⟩
      | true =>
          have hc : T.inCache st.reader b.2 = true := by
            by_contra hno
            rw [hfail, Bool.eq_false_of_not_eq_true hno] at hfetch
            cases hfetch
          obtain ⟨stored, hat, -⟩ := T.stored b hb
          obtain ⟨bytes, reader', hget, hsame⟩ :=
            PointReader.getDataBlockFromCache_hit (c := ro.call b.2 true) hst.sound hat hc
          obtain ⟨block, st₁, rfl, hfound⟩ := PointReader.fetchBlock_hit ro hfail hget
          unfold PointReader.blockIterator at hopen ⊢
          rw [hfound, Outcome.ok_bind] at hopen ⊢
          dsimp only at hopen ⊢
          obtain ⟨biter, hinit, hend⟩ := Outcome.bind_eq_ok.mp hopen
          obtain ⟨rfl, rfl⟩ := Prod.mk.inj (Except.ok.inj hend)
          exact ⟨st₁, hopen, hserves, fun _ => hsame⟩

/-- A fetch that fails leaves an iterator that `check_corruption` cannot be asked about. -/
theorem blockIterator_failed {f : FailedStatus} (ro : LookupOptions)
    (hfetch : T.fetchFailure failures noIo st.reader b.2 = some f) : ∃ st',
      T.blockIterator failures ro noIo b.2 st =
        .ok (EncryptedDataBlockIter.fresh.invalidate f.val, st') := by
  unfold PointReader.fetchFailure at hfetch
  unfold PointReader.blockIterator PointReader.fetchBlock
  cases hfail : failures b.2 with
  | some f' =>
      rw [hfail] at hfetch
      obtain rfl := Option.some.inj hfetch
      exact ⟨st, rfl⟩
  | none =>
      rw [hfail] at hfetch
      dsimp only at hfetch ⊢
      split_ifs at hfetch with hmiss
      rw [Bool.and_eq_true, Bool.not_eq_true'] at hmiss
      obtain ⟨rfl, hc⟩ := hmiss
      obtain rfl := Option.some.inj hfetch
      have hget : st.reader.getDataBlockFromCache T.env T.options (ro.call b.2 true) =
          (true, none, st.reader) := PointReader.getDataBlockFromCache_miss hc
      unfold PointReader.retrieveBlock
      rw [PointReader.retrieveBlock_miss rfl hget]
      dsimp only
      rw [hget]
      exact ⟨_, rfl⟩

theorem checkBlock_invalidate (iiter : IndexBlockIter) (status : Status) :
    PointReader.checkBlock true iiter (EncryptedDataBlockIter.fresh.invalidate status) =
      .error .outOfBuffer := rfl

/-! ### The loop over the blocks -/

theorem handlesFrom_some (hb : (T.table.written T.tableOptions)[i]? = some b) :
    T.handlesFrom (some i) = b :: (T.table.written T.tableOptions).drop (i + 1) := by
  obtain ⟨hi, hget⟩ := List.getElem?_eq_some_iff.mp hb
  rw [handlesFrom, List.drop_eq_getElem_cons hi, hget]

theorem handlesFrom_next (T : OpenTable) (i : ℕ) :
    T.handlesFrom (if i + 1 < T.indexContents.entries.length then some (i + 1) else none) =
      (T.table.written T.tableOptions).drop (i + 1) := by
  rw [length_entries, ← length_written]
  by_cases hlt : i + 1 < (T.table.written T.tableOptions).length
  · rw [if_pos hlt]
    rfl
  · rw [if_neg hlt, List.drop_of_length_le (Nat.not_lt.mp hlt)]
    rfl

theorem map_handlesFrom (T : OpenTable) (pos : Option ℕ) :
    (T.handlesFrom pos).map Prod.fst = T.blocksFrom pos := by
  cases pos with
  | none => rfl
  | some i =>
      have hmap : (T.table.written T.tableOptions).map Prod.fst = T.table.blocks :=
        map_fst_writtenFrom T.tableOptions 0 T.table.blocks
      rw [handlesFrom, blocksFrom, ← hmap, List.map_drop]

/-- A turn of the loop that fetches a block. -/
theorem readBlocks_fetched (ro : LookupOptions) (saveValue : SaveValue σ) (hst : T.Serves st)
    (h : iiter.Stands T.indexContents (some i))
    (hb : (T.table.written T.tableOptions)[i]? = some b)
    (hreads : filter.keyMayMatch noIo key.val b.2.offset = true)
    (hfetch : T.fetchFailure failures noIo st.reader b.2 = none) :
    ∃ biter : EncryptedDataBlockIter, ∃ st',
      biter.Over (T.written b.1) T.env.sstKey b.1.contents.entries ∧ T.Serves st' ∧
      SameCached T noIo st st' ∧ ∀ fuel status s,
        T.readBlocks filter failures saveValue ro noIo key.val (fuel + 1) iiter st status s =
          iiter.checkCorruption b.1.lastKey b.1.firstKey >>= fun _ =>
            T.searchBlock saveValue fuel biter key.val s >>= fun r =>
              if r.1 then .ok (iiter, ⟨r.2.1.status, false, r.2.2⟩)
              else iiter.next >>= fun iiter' =>
                T.readBlocks filter failures saveValue ro noIo key.val fuel iiter' st'
                  r.2.1.status r.2.2 := by
  have hmem := List.mem_of_getElem? hb
  obtain ⟨e, hshows⟩ := h.shows i rfl
  obtain ⟨st', hopen, hst', hsame⟩ := blockIterator_fetched ro hst hmem hfetch
  have hover := over_openedIter hmem
  refine ⟨_, st', hover, hst', hsame, fun fuel status s => ?_⟩
  have hmiss : ¬(noIo && (openedIter T.env.sstKey (T.written b.1) T.globalSeqno
      b.1.contents.entries).status.isIncomplete) = true := by
    rw [hover.status_eq, Status.isIncomplete_ok, Bool.and_false]
    exact Bool.false_ne_true
  rw [PointReader.readBlocks, if_pos hshows.valid, hshows.value_eq hb, Outcome.ok_bind,
    if_pos hreads, hopen, Outcome.ok_bind]
  dsimp only
  rw [checkBlock_openedIter, if_pos rfl, if_neg hmiss, if_neg (not_not.mpr hover.status_eq)]

/-- At a block whose fetch fails, `Get` looks for the keys at the ends of an empty table. -/
theorem readBlocks_failed (ro : LookupOptions) (saveValue : SaveValue σ)
    (h : iiter.Stands T.indexContents (some i))
    (hb : (T.table.written T.tableOptions)[i]? = some b)
    (hreads : filter.keyMayMatch noIo key.val b.2.offset = true) {f : FailedStatus}
    (hfetch : T.fetchFailure failures noIo st.reader b.2 = some f) (fuel : ℕ) (status : Status)
    (s : σ) :
    T.readBlocks filter failures saveValue ro noIo key.val (fuel + 1) iiter st status s =
      .error .outOfBuffer := by
  obtain ⟨e, hshows⟩ := h.shows i rfl
  obtain ⟨st', hopen⟩ := blockIterator_failed ro hfetch
  rw [PointReader.readBlocks, if_pos hshows.valid, hshows.value_eq hb, Outcome.ok_bind,
    if_pos hreads, hopen, Outcome.ok_bind]
  dsimp only
  rw [checkBlock_invalidate, Outcome.error_bind]

/-- A turn that the filter ends. -/
theorem readBlocks_rejected (ro : LookupOptions) (saveValue : SaveValue σ)
    (h : iiter.Stands T.indexContents (some i))
    (hb : (T.table.written T.tableOptions)[i]? = some b)
    (hreads : ¬filter.keyMayMatch noIo key.val b.2.offset = true) (fuel : ℕ) (status : Status)
    (s : σ) :
    T.readBlocks filter failures saveValue ro noIo key.val (fuel + 1) iiter st status s =
      .ok (iiter, ⟨status, false, s⟩) := by
  obtain ⟨e, hshows⟩ := h.shows i rfl
  rw [PointReader.readBlocks, if_pos hshows.valid, hshows.value_eq hb, Outcome.ok_bind,
    if_neg hreads]

section Loop

variable (T filter saveValue noIo key)

/-- The candidates from an entry of the index on. -/
def candidatesFrom (pos : Option ℕ) (s : σ) : List (TableBlock T.comparator × BlockHandle) :=
  Tweezer.candidates saveValue (fun handle => filter.keyMayMatch noIo key.val handle.offset) key
    (T.handlesFrom pos) s

end Loop

/-- The entry behind an entry of the index. -/
abbrev nextEntry (T : OpenTable) (i : ℕ) : Option ℕ :=
  if i + 1 < T.indexContents.entries.length then some (i + 1) else none

theorem candidatesFrom_some (hb : (T.table.written T.tableOptions)[i]? = some b)
    (hreads : filter.keyMayMatch noIo key.val b.2.offset = true) (s : σ) :
    T.candidatesFrom filter saveValue noIo key (some i) s =
      b :: if (lookupEntries saveValue T.comparator b.1.contents.entries key s).1 then []
        else T.candidatesFrom filter saveValue noIo key (T.nextEntry i)
          (lookupEntries saveValue T.comparator b.1.contents.entries key s).2 := by
  rw [candidatesFrom, candidatesFrom, handlesFrom_some hb, handlesFrom_next, Tweezer.candidates,
    if_pos hreads]

theorem candidatesFrom_rejected (hb : (T.table.written T.tableOptions)[i]? = some b)
    (hreads : ¬filter.keyMayMatch noIo key.val b.2.offset = true) (s : σ) :
    T.candidatesFrom filter saveValue noIo key (some i) s = [] := by
  rw [candidatesFrom, handlesFrom_some hb, Tweezer.candidates, if_neg hreads]

theorem length_handlesFrom_next (hb : (T.table.written T.tableOptions)[i]? = some b) {n : ℕ}
    (hn : (T.handlesFrom (some i)).length = n + 1) :
    (T.handlesFrom (T.nextEntry i)).length = n := by
  rw [handlesFrom_some hb] at hn
  rw [handlesFrom_next]
  exact Nat.succ.inj hn

theorem eq_none_of_handlesFrom {pos : Option ℕ} (h : iiter.Stands T.indexContents pos)
    (hn : (T.handlesFrom pos).length = 0) : pos = none := by
  cases pos with
  | none => rfl
  | some i =>
      obtain ⟨b, hb⟩ := exists_block h
      rw [handlesFrom_some hb] at hn
      cases hn

/-- The loop in which no fetch fails, by induction on the blocks that are left. -/
theorem readBlocks_settles (ro : LookupOptions) (n : ℕ) {pos : Option ℕ}
    (hn : (T.handlesFrom pos).length = n) (hst : T.Serves st)
    (h : iiter.Stands T.indexContents pos) (s : σ)
    (hfetch : ∀ b ∈ T.candidatesFrom filter saveValue noIo key pos s,
      T.fetchFailure failures noIo st.reader b.2 = none)
    (hchecks : ChecksPass saveValue key
      ((T.candidatesFrom filter saveValue noIo key pos s).map Prod.fst) iiter s) :
    ∃ iiter' : IndexBlockIter, Outcome.Settles
        (fun fuel => T.readBlocks filter failures saveValue ro noIo key.val fuel iiter st .ok s)
        (iiter', ⟨.ok, false, lookupBlocks saveValue key
          ((T.candidatesFrom filter saveValue noIo key pos s).map Prod.fst) s⟩) ∧
      iiter'.status = .ok := by
  induction n generalizing pos iiter st s with
  | zero =>
      obtain rfl := eq_none_of_handlesFrom h hn
      refine ⟨iiter, Outcome.settles_stop rfl ?_, h.status⟩
      intro fuel
      rw [PointReader.readBlocks, if_neg (by rw [h.invalid rfl]; exact Bool.false_ne_true)]
      rfl
  | succ n ih =>
      cases pos with
      | none => cases hn
      | some i =>
          obtain ⟨b, hb⟩ := exists_block h
          by_cases hreads : filter.keyMayMatch noIo key.val b.2.offset = true
          · rw [candidatesFrom_some hb hreads] at hfetch hchecks ⊢
            rw [List.forall_mem_cons] at hfetch
            obtain ⟨biter, st', hover, hst', hsame, hturn⟩ :=
              readBlocks_fetched ro saveValue hst h hb hreads hfetch.1
            obtain ⟨biter', hsearch, hover'⟩ :=
              PointReader.searchBlock_spec saveValue hover b.1.ne_nil key s
            obtain ⟨iiter', hnext, hstands⟩ := h.next buffer_lt
            rw [List.map_cons] at hchecks
            have hstep : ∀ fuel, T.readBlocks filter failures saveValue ro noIo key.val (fuel + 1)
                iiter st .ok s = T.searchBlock saveValue fuel biter key.val s >>= fun r =>
                  if r.1 then .ok (iiter, ⟨r.2.1.status, false, r.2.2⟩)
                  else iiter.next >>= fun iiter' =>
                    T.readBlocks filter failures saveValue ro noIo key.val fuel iiter' st'
                      r.2.1.status r.2.2 := by
              intro fuel
              rw [hturn, hchecks.1, Outcome.ok_bind]
            rw [List.map_cons, lookupBlocks]
            cases hdone : (lookupEntries saveValue T.comparator b.1.contents.entries key s).1 with
            | true =>
                rw [hdone] at hsearch
                refine ⟨iiter, Outcome.settles_succ rfl hstep
                  (Outcome.settles_bind hsearch ?_), h.status⟩
                apply Outcome.settles_const
                rw [if_pos rfl]
                dsimp only
                rw [hover'.status_eq]
            | false =>
                rw [hdone] at hsearch hfetch hchecks
                rw [if_neg Bool.false_ne_true] at hfetch hchecks ⊢
                obtain ⟨iiter'', hsettles, hstatus⟩ := ih (length_handlesFrom_next hb hn) hst'
                  hstands _ (fun b hb => (fetchFailure_congr hsame b.2).trans (hfetch.2 b hb))
                  (hchecks.2 hdone iiter' hnext)
                refine ⟨iiter'', Outcome.settles_succ rfl hstep
                  (Outcome.settles_bind hsearch ?_), hstatus⟩
                simp only [Bool.false_eq_true, if_false, hnext, Outcome.ok_bind, hover'.status_eq]
                exact hsettles
          · rw [candidatesFrom_rejected hb hreads]
            exact ⟨iiter, Outcome.settles_stop rfl
              (fun fuel => readBlocks_rejected ro saveValue h hb hreads fuel .ok s), h.status⟩

/-- Where the loop ends no fetch has failed, and the checks have passed. -/
theorem fetched_of_readBlocks (n : ℕ) {pos : Option ℕ} (hn : (T.handlesFrom pos).length = n)
    (hst : T.Serves st) (h : iiter.Stands T.indexContents pos) {fuel : ℕ} {status : Status} {s : σ}
    {r : IndexBlockIter × GetResult σ}
    (hok : T.readBlocks filter failures saveValue ro noIo key.val fuel iiter st status s = .ok r) :
    (∀ b ∈ T.candidatesFrom filter saveValue noIo key pos s,
      T.fetchFailure failures noIo st.reader b.2 = none) ∧
    ChecksPass saveValue key
      ((T.candidatesFrom filter saveValue noIo key pos s).map Prod.fst) iiter s := by
  induction n generalizing pos iiter st s fuel status with
  | zero =>
      obtain rfl := eq_none_of_handlesFrom h hn
      exact ⟨(fun b hb => nomatch hb), trivial⟩
  | succ n ih =>
      cases pos with
      | none => cases hn
      | some i =>
          cases fuel with
          | zero => cases hok
          | succ fuel =>
              obtain ⟨b, hb⟩ := exists_block h
              by_cases hreads : filter.keyMayMatch noIo key.val b.2.offset = true
              · rw [candidatesFrom_some hb hreads]
                cases hfetch : T.fetchFailure failures noIo st.reader b.2 with
                | some f =>
                    rw [readBlocks_failed ro saveValue h hb hreads hfetch] at hok
                    cases hok
                | none =>
                    obtain ⟨biter, st', hover, hst', hsame, hturn⟩ :=
                      readBlocks_fetched ro saveValue hst h hb hreads hfetch
                    obtain ⟨biter', hsearch, -⟩ :=
                      PointReader.searchBlock_spec saveValue hover b.1.ne_nil key s
                    obtain ⟨iiter', hnext, hstands⟩ := h.next buffer_lt
                    rw [hturn] at hok
                    obtain ⟨⟨⟩, hcheck, hok⟩ := Outcome.bind_eq_ok.mp hok
                    obtain ⟨result, hresult, hok⟩ := Outcome.bind_eq_ok.mp hok
                    obtain rfl := hsearch.stable fuel result hresult
                    dsimp only at hok
                    cases hdone :
                        (lookupEntries saveValue T.comparator b.1.contents.entries key s).1 with
                    | true =>
                        refine ⟨?_, hcheck, fun hno => absurd (hdone.symm.trans hno) (by decide)⟩
                        rw [if_pos rfl, List.forall_mem_singleton]
                        exact hfetch
                    | false =>
                        rw [hdone, if_neg Bool.false_ne_true, hnext, Outcome.ok_bind] at hok
                        obtain ⟨hrest, hchecks⟩ := ih (length_handlesFrom_next hb hn) hst' hstands hok
                        rw [if_neg Bool.false_ne_true, List.forall_mem_cons]
                        refine ⟨⟨hfetch, fun b hb => ?_⟩, hcheck, fun _ it hit => ?_⟩
                        · rw [← fetchFailure_congr hsame]
                          exact hrest b hb
                        · obtain rfl := Except.ok.inj (hnext.symm.trans hit)
                          exact hchecks
              · rw [candidatesFrom_rejected hb hreads]
                exact ⟨(fun b hb => nomatch hb), trivial⟩

end OpenTable

namespace TableFilter

variable {filter : TableFilter} {noIo : Bool} {key : Bytes} {offset : ℕ}

theorem rejects_full (h : filter.fullFilterKeyMayMatch noIo key = false) :
    ∃ mayMatch, filter.bits = .full mayMatch ∧ mayMatch (extractUserKey key) = false := by
  unfold fullFilterKeyMayMatch at h
  split at h
  · next mayMatch hbits => exact ⟨mayMatch, hbits, (Bool.or_eq_false_iff.mp h).2⟩
  · cases h

theorem rejects_block (h : filter.keyMayMatch noIo key offset = false) :
    ∃ mayMatch, filter.bits = .blockBased mayMatch ∧
      mayMatch (extractUserKey key) offset = false := by
  unfold keyMayMatch at h
  split at h
  · next mayMatch hbits => exact ⟨mayMatch, hbits, (Bool.or_eq_false_iff.mp h).2⟩
  · cases h

/-- What passes the filter that is read passes without a read. -/
theorem fullFilterKeyMayMatch_tier (h : filter.fullFilterKeyMayMatch false key = true) :
    filter.fullFilterKeyMayMatch true key = true := by
  unfold fullFilterKeyMayMatch at h ⊢
  split at h
  · rw [Bool.false_and, Bool.false_or] at h
    rw [h, Bool.or_true]
  · rfl

theorem keyMayMatch_tier (h : filter.keyMayMatch false key offset = true) :
    filter.keyMayMatch true key offset = true := by
  unfold keyMayMatch at h ⊢
  split at h
  · rw [Bool.false_and, Bool.false_or] at h
    rw [h, Bool.or_true]
  · rfl

end TableFilter

namespace OpenTable

variable {T : OpenTable} {filter : TableFilter} {failures : FetchFailures} {σ : Type}
  {saveValue : SaveValue σ} {ro : LookupOptions} {noIo : Bool} {st : CacheState}
  {key : InternalKey} {s : σ}

theorem candidates_eq (T : OpenTable) (filter : TableFilter) (saveValue : SaveValue σ)
    (noIo : Bool) (key : InternalKey) (s : σ) : T.candidates filter saveValue noIo key s =
      if filter.fullFilterKeyMayMatch noIo key.val then
        T.candidatesFrom filter saveValue noIo key (T.firstBlock key) s
      else [] := rfl

/-- A lookup in which no fetch fails, with either read tier. -/
theorem tieredGet_settles (ro : LookupOptions) (hst : T.Serves st) (s : σ)
    (hfetch : ∀ b ∈ T.candidates filter saveValue noIo key s,
      T.fetchFailure failures noIo st.reader b.2 = none)
    (hchecked : T.CandidatesChecked filter saveValue noIo key s) : Outcome.Settles
      (fun fuel => T.tieredGet filter failures saveValue ro noIo fuel st key.val s)
      ⟨.ok, false, lookupBlocks saveValue key
        ((T.candidates filter saveValue noIo key s).map Prod.fst) s⟩ := by
  unfold PointReader.tieredGet
  rw [candidates_eq] at hfetch ⊢
  unfold CandidatesChecked at hchecked
  rw [candidates_eq] at hchecked
  split_ifs at hfetch hchecked ⊢
  · obtain ⟨iiter, hseek, hstands⟩ := seek_stands T.over_index key
    obtain ⟨iiter', hsettles, hstatus⟩ :=
      readBlocks_settles ro _ rfl hst hstands s hfetch (hchecked iiter hseek)
    refine Outcome.settles_bind (Outcome.settles_const hseek)
      (Outcome.settles_bind hsettles (Outcome.settles_const ?_))
    dsimp only
    rw [PointReader.finalStatus, if_pos rfl, hstatus]
  · exact Outcome.settles_const rfl

/-- Where a lookup ends, no fetch has failed and the checks have passed. -/
theorem fetched_of_tieredGet (hst : T.Serves st) {fuel : ℕ} {r : GetResult σ}
    (hok : T.tieredGet filter failures saveValue ro noIo fuel st key.val s = .ok r) :
    (∀ b ∈ T.candidates filter saveValue noIo key s,
      T.fetchFailure failures noIo st.reader b.2 = none) ∧
    T.CandidatesChecked filter saveValue noIo key s := by
  unfold PointReader.tieredGet at hok
  unfold CandidatesChecked
  rw [candidates_eq]
  split_ifs at hok ⊢
  · obtain ⟨iiter, hseek, hstands⟩ := seek_stands T.over_index key
    rw [hseek, Outcome.ok_bind] at hok
    obtain ⟨found, hfound, -⟩ := Outcome.bind_eq_ok.mp hok
    obtain ⟨hfetch, hchecks⟩ := fetched_of_readBlocks _ rfl hst hstands hfound
    refine ⟨hfetch, fun it hit => ?_⟩
    obtain rfl := Except.ok.inj (hseek.symm.trans hit)
    exact hchecks
  · exact ⟨(fun b hb => nomatch hb), fun it hit => trivial⟩

/-- The filter that is read rejects at least what the one at hand does. -/
theorem candidates_tier (T : OpenTable) (filter : TableFilter) (saveValue : SaveValue σ)
    (key : InternalKey) (s : σ) : T.candidates filter saveValue false key s <+:
      T.candidates filter saveValue true key s := by
  rw [candidates_eq, candidates_eq]
  by_cases hfull : filter.fullFilterKeyMayMatch false key.val = true
  · rw [if_pos hfull, if_pos (TableFilter.fullFilterKeyMayMatch_tier hfull)]
    apply candidates_prefix
    intro handle hreads
    exact TableFilter.keyMayMatch_tier hreads
  · rw [if_neg hfull]
    exact List.nil_prefix

/-- Without a filter the checks are those of the lookups before. -/
theorem candidatesChecked_of_checked (filter : TableFilter) (noIo : Bool)
    (h : T.Checked saveValue key s) : T.CandidatesChecked filter saveValue noIo key s := by
  intro iiter hseek
  apply ChecksPass.of_prefix saveValue ?_ (h iiter hseek)
  rw [← map_handlesFrom, candidates_eq]
  apply List.IsPrefix.map
  split_ifs
  · exact candidates_prefix_self saveValue _ s
  · exact List.nil_prefix

/-- The candidates decide what a lookup keeps. -/
theorem lookupBlocks_found (hfilter : T.Filters filter saveValue key) (noIo : Bool) (s : σ) :
    lookupBlocks saveValue key ((T.candidates filter saveValue noIo key s).map Prod.fst) s =
      lookupBlocks saveValue key (T.blocksFrom (T.firstBlock key)) s := by
  rw [candidates_eq]
  by_cases hfull : filter.fullFilterKeyMayMatch noIo key.val = true
  · rw [if_pos hfull, candidatesFrom, lookupBlocks_candidates, map_handlesFrom]
    intro b rest hsuffix hreads
    obtain ⟨mayMatch, hbits, hno⟩ := TableFilter.rejects_block hreads
    exact hfilter.blockBased mayMatch hbits b rest hsuffix hno
  · obtain ⟨mayMatch, hbits, hno⟩ :=
      TableFilter.rejects_full (Bool.eq_false_of_not_eq_true hfull)
    rw [if_neg hfull, hfilter.full mayMatch hbits hno]
    rfl

/-- With a failing fetch, and in the block cache tier with a block that is in no cache, `Get` stops
in its own check: it is sound exactly if each block that it comes to can be fetched, and passes the
check where the file may not be read. -/
theorem getsSoundly_iff (T : OpenTable) (filter : TableFilter) (failures : FetchFailures)
    (saveValue : SaveValue σ) (ro : LookupOptions) (noIo : Bool) (st : CacheState)
    (hst : T.Serves st) (key : InternalKey) (hfilter : T.Filters filter saveValue key) (s : σ) :
    T.GetsSoundly filter failures saveValue ro noIo st key s ↔
      (∀ b ∈ T.candidates filter saveValue noIo key s,
        T.fetchFailure failures noIo st.reader b.2 = none) ∧
      (noIo = true → T.CandidatesChecked filter saveValue true key s) := by
  constructor
  · rintro ⟨hends, hfails⟩
    cases hfirst : T.firstFailure filter failures saveValue noIo st key s with
    | some f =>
        obtain ⟨r, hsettles, -⟩ := hfails f hfirst
        obtain ⟨fuel, hget⟩ := hsettles.enough
        have hfetch := (fetched_of_tieredGet hst (hget fuel le_rfl)).1
        rw [firstFailure, List.findSome?_eq_none_iff.mpr hfetch] at hfirst
        cases hfirst
    | none =>
        refine ⟨List.findSome?_eq_none_iff.mp hfirst, fun hno => ?_⟩
        obtain ⟨r, hsettles, -⟩ := hends hno
        obtain ⟨fuel, hget⟩ := hsettles.enough
        exact (fetched_of_tieredGet hst (hget fuel le_rfl)).2
  · rintro ⟨hfetch, hchecked⟩
    constructor
    · rintro rfl
      have hio : T.CandidatesChecked filter saveValue false key s := by
        intro iiter hseek
        exact ChecksPass.of_prefix saveValue ((T.candidates_tier filter saveValue key s).map _)
          (hchecked rfl iiter hseek)
      refine ⟨_, tieredGet_settles ro hst s hfetch (hchecked rfl), Or.inr
        ⟨_, tieredGet_settles ro hst s (fun b _ => rfl) hio, rfl, ?_⟩⟩
      rw [lookupBlocks_found hfilter, lookupBlocks_found hfilter]
    · intro f hfirst
      rw [firstFailure, List.findSome?_eq_none_iff.mpr hfetch] at hfirst
      cases hfirst

end OpenTable

/-- The filter of that table, which was not read yet. -/
def putOfAFilter : TableFilter := ⟨.full fun user => user == [97], false⟩

theorem getsSoundly_cached : oneBlockTable.GetsSoundly putOfAFilter (fun _ => none) saveFirst
    ⟨true, true⟩ true (.ofReader putOfACached) putOfALookup.1 none := by
  have hfilter : oneBlockTable.Filters putOfAFilter saveFirst putOfALookup.1 := by
    constructor
    · intro mayMatch hbits hno
      obtain rfl := FilterBits.full.inj hbits
      cases hno
    · exact fun _ hbits => nomatch hbits
  have hfetch : ((oneBlockTable.candidates putOfAFilter saveFirst true putOfALookup.1 none).all
      fun b => (oneBlockTable.fetchFailure (fun _ => none) true putOfACached b.2).isNone) = true := by
    decide +kernel
  apply (OpenTable.getsSoundly_iff oneBlockTable putOfAFilter (fun _ => none) saveFirst ⟨true, true⟩
    true (.ofReader putOfACached)
    (OpenTable.serves_ofReader (ReaderState.sound_initial.insertBlock putOfASst_at rfl))
    putOfALookup.1 hfilter none).mpr
  constructor
  · intro b hb
    exact Option.isNone_iff_eq_none.mp (List.all_eq_true.mp hfetch b hb)
  · exact fun _ => OpenTable.candidatesChecked_of_checked putOfAFilter true checked_putOfALookup

/-- With nothing in the cache a lookup that must not read takes the last key of no block. -/
theorem not_getsSoundly_initial : ¬ oneBlockTable.GetsSoundly ⟨.none, true⟩ (fun _ => none)
    saveFirst ⟨true, true⟩ true (.ofReader .initial) putOfALookup.1 none := by
  rintro ⟨hends, -⟩
  obtain ⟨r, hsettles, -⟩ := hends rfl
  obtain ⟨fuel, hget⟩ := hsettles.enough
  obtain ⟨hfetch, -⟩ := OpenTable.fetched_of_tieredGet
    (OpenTable.serves_ofReader ReaderState.sound_initial) (hget fuel le_rfl)
  have hfound : ((oneBlockTable.candidates ⟨.none, true⟩ saveFirst true putOfALookup.1 none).all
      fun b => (oneBlockTable.fetchFailure (fun _ => none) true .initial b.2).isNone) = false := by
    decide +kernel
  rw [List.all_eq_false] at hfound
  obtain ⟨b, hb, hfails⟩ := hfound
  exact hfails (congrArg Option.isNone (hfetch b hb))

end Tweezer
