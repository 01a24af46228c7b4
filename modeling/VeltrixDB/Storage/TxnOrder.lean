import VeltrixDB.Storage.ApplyStore

/-!
# A transaction and its operations one by one

`Commit` checks the guards, writes all staged puts as one batch and then deletes
(`storage/transaction.go`), while a client may have staged puts and deletes in any
order.  This module compares it with the staged operations run one after the other,
at one time of the clock and without other writers.  Index entries and search keys
that follow the operations live under reserved keys and are seen by none of the
others.

Main results:

- Theorem `Hides.multiPut`, `Hides.delete`: what the operations do to the keys
  that are not reserved.
- Theorem `NodeStore.commit_eq_staged_iff`: when a commit returns nil, and for
  which staged operations it then does what they do one by one.
-/

open scoped Bytes

namespace VeltrixDB.Storage

open Function List NodeStore TxnOp Set

/-! ## Effects on the keyspace -/

variable {s : NodeStore}

/-- All readings of the clock give `clk`: it is the time of the command that is
being applied, or the local clock stands. -/
def NodeStore.At (clk : WriteClock) (s : NodeStore) : Prop :=
  s.cur = some clk ∨
    (s.cur = none ∧ clk.stampUs = clk.nowUs ∧ ∀ n, s.clocks n = clk.nowUs)

/-- The cache is sound, the clock stands and the registry is one of `G`. -/
structure NodeStore.Steady (clk : WriteClock) (G : Set Registry) (s : NodeStore) : Prop where
  sound : s.Sound
  time : s.At clk
  registry : s.registry ∈ G

/-- The operation writes `es` and nothing else, as far as the keys of `K` are
seen from now on. -/
def Acts {α : Type} (clk : WriteClock) (G : Set Registry) (K : Set Key) (es : List (Key × Option Cell))
    (Q : α → Prop) (x : StoreM α) : Prop :=
  ∀ s : NodeStore, s.Steady clk G → Q (x s).result ∧ (x s).store.Steady clk G ∧
    ∀ k ∈ K, Cell.SameFrom clk.nowUs ((x s).store.cells k) (s.cells.write es k)

section Acts

variable {α β ι : Type} {clk : WriteClock} {G : Set Registry} {K : Set Key}
  {es es' : List (Key × Option Cell)} {Q : α → Prop} {P : β → Prop} {x : StoreM α}
  {f : α → StoreM β}

/-- Writes do not tell apart what reads do not. -/
theorem Cell.SameFrom.write {t : Int} {σ σ' : Keyspace} {k : Key}
    (h : Cell.SameFrom t (σ k) (σ' k)) (es : List (Key × Option Cell)) :
    Cell.SameFrom t (σ.write es k) (σ'.write es k) := by
  rw [Keyspace.write_apply, Keyspace.write_apply]
  cases ((es.filter fun e => e.1 = k).getLast?).map Prod.snd with
  | none => exact h
  | some => exact .refl _ _

namespace Acts

theorem pure {a : α} (ha : Q a) : Acts clk G K [] Q (Pure.pure a : StoreM α) :=
  fun _ hs => ⟨ha, hs, fun _ _ => .refl _ _⟩

theorem bind (hx : Acts clk G K es Q x) (hf : ∀ a, Q a → Acts clk G K es' P (f a)) :
    Acts clk G K (es ++ es') P (x >>= f) := by
  intro s hs
  obtain ⟨hQ, hmid, hcells⟩ := hx s hs
  obtain ⟨hP, hend, hcells'⟩ := hf _ hQ _ hmid
  refine ⟨hP, hend, fun k hk => ?_⟩
  rw [Keyspace.write_append]
  exact (hcells' k hk).trans _ _ _ ((hcells k hk).write es')

theorem seq (hx : Acts clk G K [] Q x) (hf : ∀ a, Q a → Acts clk G K es P (f a)) :
    Acts clk G K es P (x >>= f) := hx.bind hf

section

variable (hx : Acts clk G K es Q x)
include hx

/-- What follows writes nothing. -/
theorem andThen (hf : ∀ a, Q a → Acts clk G K [] P (f a)) : Acts clk G K es P (x >>= f) :=
  append_nil es ▸ hx.bind hf

/-- What is written outside `K` is not seen. -/
theorem hide (hes : ∀ e ∈ es, e.1 ∉ K) : Acts clk G K [] Q x := by
  intro s hs
  obtain ⟨hQ, hend, hcells⟩ := hx s hs
  refine ⟨hQ, hend, fun k hk => ?_⟩
  have hsame := hcells k hk
  have hnone : (es.filter fun e => e.1 = k) = [] := by
    apply filter_eq_nil_iff.mpr
    intro e he heq
    exact hes e he (of_decide_eq_true heq ▸ hk)
  rw [Keyspace.write_apply, hnone] at hsame
  exact hsame

theorem imp {Q' : α → Prop} (h : ∀ a, Q a → Q' a) : Acts clk G K es Q' x := by
  intro s hs
  obtain ⟨hQ, hrest⟩ := hx s hs
  exact ⟨h _ hQ, hrest⟩

theorem congr (h : ∀ σ : Keyspace, σ.write es = σ.write es') : Acts clk G K es' Q x := by
  intro s hs
  obtain ⟨hQ, hend, hcells⟩ := hx s hs
  refine ⟨hQ, hend, fun k hk => ?_⟩
  rw [← h]
  exact hcells k hk

end

theorem ite {c : Prop} [Decidable c] {y : StoreM α} (hx : c → Acts clk G K es Q x)
    (hy : ¬ c → Acts clk G K es Q y) : Acts clk G K es Q (if c then x else y) := by
  split
  next h => exact hx h
  next h => exact hy h

theorem forM {l : List ι} {f : ι → StoreM PUnit} {w : ι → List (Key × Option Cell)}
    (h : ∀ a ∈ l, Acts clk G K (w a) (fun _ => True) (f a)) :
    Acts clk G K (l.flatMap w) (fun _ => True) (l.forM f) := by
  induction l with
  | nil => exact pure trivial
  | cons a l ih =>
    exact (h a mem_cons_self).bind fun _ _ =>
      ih fun b hb => h b (mem_cons_of_mem _ hb)

theorem forM_map {l : List ι} {f : ι → StoreM PUnit} {w : ι → Key × Option Cell}
    (h : ∀ a ∈ l, Acts clk G K [w a] (fun _ => True) (f a)) :
    Acts clk G K (l.map w) (fun _ => True) (l.forM f) := by
  rw [map_eq_flatMap]
  exact forM h

theorem forM_hidden {l : List ι} {f : ι → StoreM PUnit}
    (h : ∀ a ∈ l, Acts clk G K [] (fun _ => True) (f a)) :
    Acts clk G K [] (fun _ => True) (l.forM f) := by
  have hall := forM (w := fun _ => []) h
  rw [flatMap_eq_nil_iff.mpr fun _ _ => rfl] at hall
  exact hall

theorem mapM {l : List ι} {f : ι → StoreM β} (h : ∀ a ∈ l, Acts clk G K [] P (f a)) :
    Acts clk G K [] (fun bs => bs.length = l.length) (l.mapM f) := by
  induction l with
  | nil => exact pure rfl
  | cons a l ih =>
    rw [mapM_cons]
    refine (h a mem_cons_self).seq fun b _ => ?_
    refine (ih fun b hb => h b (mem_cons_of_mem _ hb)).seq fun bs hbs => ?_
    exact pure (by rw [length_cons, length_cons, hbs])

/-! ## Accesses -/

theorem of_read (h : ∀ s : NodeStore, s.Steady clk G → Q (x s).result ∧
    (x s).store.Steady clk G ∧ (x s).store.cells = s.cells) : Acts clk G K [] Q x := by
  intro s hs
  obtain ⟨hQ, hend, hcells⟩ := h s hs
  refine ⟨hQ, hend, fun k _ => ?_⟩
  rw [hcells]
  exact .refl _ _

end Acts

namespace NodeStore

theorem Steady.tick (hs : s.Steady clk G) (n : Nat) :
    { s with clocks := fun i => s.clocks (i + n) }.Steady clk G :=
  { hs with time := hs.time.imp id fun h => ⟨h.1, h.2.1, fun i => h.2.2 (i + n)⟩ }

theorem Steady.cur_some (hs : s.Steady clk G) {t : WriteClock} (hcur : s.cur = some t) :
    t = clk := by
  rcases hs.time with h | ⟨h, -⟩
  · rw [hcur] at h
    exact Option.some.inj h
  · rw [hcur] at h
    cases h

theorem Steady.cur_none (hs : s.Steady clk G) (hcur : s.cur = none) :
    clk.stampUs = clk.nowUs ∧ ∀ n, s.clocks n = clk.nowUs := by
  rcases hs.time with h | ⟨-, h⟩
  · rw [hcur] at h
    cases h
  · exact h

theorem Steady.of_clocks {s' : NodeStore} (hs : s.Steady clk G) (hsound : s'.Sound)
    (hcur : s'.cur = s.cur) (hclocks : s'.clocks = s.clocks) (hreg : s'.registry = s.registry) :
    s'.Steady clk G := by
  refine ⟨hsound, ?_, hreg ▸ hs.registry⟩
  unfold At
  rw [hcur, hclocks]
  exact hs.time

theorem clocks_markTombstone (s : NodeStore) (key : Key) (stampUs : Int) :
    (s.markTombstone key stampUs).cur = s.cur ∧
      (s.markTombstone key stampUs).clocks = s.clocks ∧
      (s.markTombstone key stampUs).registry = s.registry := by
  unfold markTombstone
  split <;> exact ⟨rfl, rfl, rfl⟩

theorem clocks_markExpired (s : NodeStore) (key : Key) (cutoffUs tombUs : Int) :
    (s.markExpired key cutoffUs tombUs).cur = s.cur ∧
      (s.markExpired key cutoffUs tombUs).clocks = s.clocks ∧
      (s.markExpired key cutoffUs tombUs).registry = s.registry := by
  unfold markExpired
  split
  · exact ⟨rfl, rfl, rfl⟩
  · split
    · exact ⟨rfl, rfl, rfl⟩
    · exact s.clocks_markTombstone key tombUs

theorem Steady.decisionNowUs (hs : s.Steady clk G) :
    ∃ n, VeltrixDB.Storage.decisionNowUs s =
      ⟨clk.nowUs, { s with clocks := fun i => s.clocks (i + n) }, true⟩ := by
  unfold VeltrixDB.Storage.decisionNowUs localClock
  split
  next t hcur => exact ⟨0, by rw [hs.cur_some hcur]; rfl⟩
  next hcur => exact ⟨1, by rw [(hs.cur_none hcur).2 0]⟩

end NodeStore

namespace Acts

theorem decisionNowUs : Acts clk G K [] (fun n => n = clk.nowUs) decisionNowUs := by
  apply of_read
  intro s hs
  obtain ⟨n, hn⟩ := hs.decisionNowUs
  rw [hn]
  exact ⟨rfl, hs.tick n, rfl⟩

theorem writeClock : Acts clk G K [] (fun c => c = clk) NodeStore.writeClock := by
  apply of_read
  intro s hs
  unfold NodeStore.writeClock
  split
  next t hcur => exact ⟨hs.cur_some hcur, hs, rfl⟩
  next hcur =>
    obtain ⟨hstamp, hclocks⟩ := hs.cur_none hcur
    refine ⟨?_, hs.tick 1, rfl⟩
    cases clk
    simp_all

theorem expiryCutoffUs : Acts clk G K [] (fun n => n ≤ clk.nowUs) expiryCutoffUs := by
  apply of_read
  intro s hs
  unfold VeltrixDB.Storage.expiryCutoffUs
  split
  next t hcur => exact ⟨by rw [hs.cur_some hcur], hs, rfl⟩
  next hcur =>
    refine ⟨?_, hs.tick 1, rfl⟩
    rw [(hs.cur_none hcur).2 0]
    unfold RaftClock.expiryCutoffUs
    simp only
    split <;> omega

section

variable (key : Key)

theorem expire (c : Cell) (nowUs : Int) : Acts clk G K [] (fun _ => True) (expire key c nowUs) := by
  refine expiryCutoffUs.seq fun cut hcut s hs => ⟨trivial, ?_⟩
  split
  · obtain ⟨hcur, hclocks, hreg⟩ := s.clocks_markExpired key cut nowUs
    refine ⟨hs.of_clocks (hs.sound.expire key cut nowUs) hcur hclocks hreg, fun k _ => ?_⟩
    exact s.sameFrom_markExpired key k nowUs hcut
  · exact ⟨hs.of_clocks (hs.sound.evict key) rfl rfl rfl, fun k _ => .refl _ _⟩

theorem lookup : Acts clk G K [] (fun _ => True) (NodeStore.lookup key) := by
  intro s hs
  unfold NodeStore.lookup
  split
  · exact ⟨trivial, hs, fun _ _ => .refl _ _⟩
  next c hc =>
    obtain ⟨n, hn⟩ := hs.decisionNowUs
    have hmid := hs.tick n
    have hrest : Acts clk G K [] (fun _ => True) (do
        NodeStore.expire key c clk.nowUs
        return .error .keyExpired : StoreM (Except ApplyError (List UInt8))) :=
      (expire key c clk.nowUs).seq fun _ _ => pure trivial
    refine ⟨trivial, ?_⟩
    rw [StoreM.bind_eq hn]
    by_cases hat : (c.at clk.nowUs).isNone = true
    · rw [if_pos hat]
      exact (hrest _ hmid).2
    · rw [if_neg hat]
      refine ⟨hmid.of_clocks (hmid.sound.cachePut hc) rfl rfl rfl, fun k _ => .refl _ _⟩

theorem get : Acts clk G K [] (fun _ => True) (NodeStore.get key) := by
  intro s hs
  unfold NodeStore.get
  split
  · exact lookup key s hs
  next p hp =>
    split
    · exact ⟨trivial, hs, fun _ _ => .refl _ _⟩
    · have hrest : Acts clk G K [] (fun _ => True) (do
          let nowUs ← VeltrixDB.Storage.decisionNowUs
          if p.2 ≤ nowUs then NodeStore.lookup key else return .ok p.1 :
            StoreM (Except ApplyError (List UInt8))) := by
        refine decisionNowUs.seq fun nowUs _ => ?_
        exact ite (fun _ => lookup key) fun _ => pure trivial
      exact hrest s hs

theorem install (c : Cell) :
    Acts clk G K [(key, some c)] (fun _ => True) (nodeEngine.install key c) := by
  intro s hs
  refine ⟨trivial, hs.of_clocks (hs.sound.install key c) rfl rfl rfl, fun k _ => ?_⟩
  show Cell.SameFrom _ (Slots.cells (s.index.put key (c.1, some c.2)).find k) _
  rw [cells_put]
  exact .refl _ _

theorem installAround (c : Cell) :
    Acts clk G K [(key, some c)] (fun _ => True) (nodeEngine.installAround key c) := by
  intro s hs
  refine ⟨trivial, hs.of_clocks (hs.sound.installAround key c) rfl rfl rfl, fun k _ => ?_⟩
  show Cell.SameFrom _ (Slots.cells (s.index.put key (c.1, some c.2)).find k) _
  rw [cells_put]
  exact .refl _ _

theorem remove (stampUs : Int) :
    Acts clk G K [(key, none)] (fun _ => True) (nodeEngine.remove key stampUs) := by
  intro s hs
  obtain ⟨hcur, hclocks, hreg⟩ := s.clocks_markTombstone key stampUs
  refine ⟨trivial, hs.of_clocks (hs.sound.remove key stampUs) hcur hclocks hreg, fun k _ => ?_⟩
  show Cell.SameFrom _ ((s.markTombstone key stampUs).cells k) _
  rw [cells_markTombstone]
  exact .refl _ _

theorem removePresent (stampUs : Int) :
    Acts clk G K [(key, none)] (fun _ => True) (nodeEngine.removePresent key stampUs) := by
  intro s hs
  by_cases hsome : (s.cells key).isSome = true
  · have heq : nodeEngine.removePresent key stampUs s = nodeEngine.remove key stampUs s := by
      show (⟨(), if _ then _ else _, true⟩ : Outcome Unit) = _
      rw [if_pos hsome]
      rfl
    rw [heq]
    exact remove key stampUs s hs
  · have heq : nodeEngine.removePresent key stampUs s = ⟨(), s, true⟩ := by
      show (⟨(), if _ then _ else _, true⟩ : Outcome Unit) = _
      rw [if_neg hsome]
    rw [heq]
    refine ⟨trivial, hs, fun k _ => ?_⟩
    have hcell : s.cells key = none := Option.not_isSome_iff_eq_none.mp hsome
    show Cell.SameFrom _ _ (update s.cells key none k)
    rw [← hcell, update_eq_self]
    exact .refl _ _

theorem liveCell : Acts clk G K [] (fun _ => True) (NodeStore.liveCell key) := by
  intro s hs
  unfold NodeStore.liveCell
  split
  · exact ⟨trivial, hs, fun _ _ => .refl _ _⟩
  next c _ =>
    have hrest : Acts clk G K [] (fun _ => True) (do
        let nowUs ← VeltrixDB.Storage.decisionNowUs
        return c.at nowUs : StoreM (Option Cell)) :=
      decisionNowUs.seq fun _ _ => pure trivial
    exact hrest s hs

theorem existed : Acts clk G K [] (fun _ => True) (NodeStore.existed key) := by
  intro s hs
  unfold NodeStore.existed
  split
  · have hrest : Acts clk G K [] (fun _ => True)
        (do return (← NodeStore.liveCell key).isSome : StoreM Bool) :=
      (liveCell key).seq fun _ _ => pure trivial
    exact hrest s hs
  · exact ⟨trivial, hs, fun _ _ => .refl _ _⟩

end

theorem anyOrder (keys : List Key) :
    Acts clk G K [] (fun l => l.Perm keys) (nodeEngine.anyOrder keys) :=
  of_read fun s hs => ⟨(s.orders 0).range_perm keys, hs.of_clocks hs.sound rfl rfl rfl, rfl⟩

theorem scan (p : Key → Bool) :
    Acts clk G K [] (fun l => ∀ k ∈ l, p k = true) (nodeEngine.scan p) := by
  refine decisionNowUs.seq fun nowUs _ => ?_
  have hkeys : Acts clk G K [] (fun l : List Key => ∀ k ∈ l, p k = true)
      fun s => ⟨(s.liveKeys nowUs).filter p, s, true⟩ :=
    of_read fun s hs => ⟨fun k hk => (mem_filter.mp hk).2, hs, rfl⟩
  refine hkeys.seq fun keys hp => ?_
  exact (anyOrder keys).imp fun l hl k hk => hp k (hl.mem_iff.mp hk)

theorem scanKeys : Acts clk G K [] (fun _ => True) nodeEngine.scanKeys := by
  have hlocal : Acts clk G K [] (fun _ => True) localClock :=
    of_read fun s hs => ⟨trivial, hs.tick 1, rfl⟩
  refine hlocal.seq fun localUs _ => ?_
  refine seq (Q := fun _ => True) (of_read fun s hs => ⟨trivial, hs, rfl⟩) fun nowUs _ => ?_
  refine seq (Q := fun _ => True) (of_read fun s hs => ⟨trivial, hs, rfl⟩) fun keys _ => ?_
  exact (anyOrder keys).imp fun _ _ => trivial

theorem registry : Acts clk G K [] (fun g => g ∈ G) nodeEngine.registry :=
  of_read fun _ hs => ⟨hs.registry, hs, rfl⟩

theorem setRegistry {g : Registry} (hg : g ∈ G) :
    Acts clk G K [] (fun _ => True) (nodeEngine.setRegistry g) :=
  of_read fun _ hs => ⟨trivial, { hs with registry := hg }, rfl⟩

end Acts

theorem GroupOrder.filter_key {key : ι → Key} {group : Key → Nat} (b : GroupOrder key group)
    (l : List ι) (k : Key) :
    ((b.order l).filter fun a => key a = k) = l.filter fun a => key a = k := by
  have hgroup := congrArg (List.filter fun a => decide (key a = k)) (b.order_group l (group k))
  rw [filter_filter, filter_filter] at hgroup
  have hsame : ∀ a, (decide (key a = k) && decide (group (key a) = group k)) =
      decide (key a = k) := by
    intro a
    by_cases ha : key a = k
    · simp [ha]
    · simp [ha]
  simp only [hsame] at hgroup
  exact hgroup

theorem Acts.diskOrder (l : List (Key × Cell)) :
    Acts clk G K [] (fun l' => ∀ k, (l'.filter fun e => e.1 = k) = l.filter fun e => e.1 = k)
      (nodeEngine.diskOrder l) :=
  Acts.of_read fun s hs => ⟨(s.disks 0).filter_key l, hs.of_clocks hs.sound rfl rfl rfl, rfl⟩

theorem Acts.shardOrder (l : List PutReq) :
    Acts clk G K [] (fun l' => ∀ k, (l'.filter fun r => r.key = k) = l.filter fun r => r.key = k)
      (nodeEngine.shardOrder l) :=
  Acts.of_read fun s hs => ⟨(s.shards 0).filter_key l, hs.of_clocks hs.sound rfl rfl rfl, rfl⟩

/-! ## Operations -/

/-- The keys that are not reserved. -/
def plainKeys : Set Key := {k | isInternalIndexKey k = false}

variable {json : JsonParser} {key : Key}

theorem not_mem_plainKeys (h : isInternalIndexKey key = true) : key ∉ plainKeys := by
  intro hmem
  rw [show isInternalIndexKey key = false from hmem] at h
  cases h

namespace Acts

/-- A write to a reserved key is not seen under the others. -/
theorem hide_internal {α : Type} {P : α → Prop} {m : StoreM α} {c : Option Cell}
    (ha : Acts clk univ plainKeys [(key, c)] P m) (h : isInternalIndexKey key = true) :
    Acts clk univ plainKeys [] P m :=
  ha.hide (forall_mem_singleton.mpr (not_mem_plainKeys h))

theorem putIndexEntry (h : isInternalIndexKey key = true) :
    Acts clk univ plainKeys [] (fun _ => True) (putIndexEntry nodeEngine key) := by
  exact writeClock.seq fun c _ => (install key _).hide_internal h

theorem deleteIndexEntry (h : isInternalIndexKey key = true) :
    Acts clk univ plainKeys [] (fun _ => True) (deleteIndexEntry nodeEngine key) := by
  exact writeClock.seq fun c _ => (remove key _).hide_internal h

theorem applySecondaryIndexes (primary oldValue newValue : List UInt8) :
    Acts clk univ plainKeys [] (fun _ => True)
      (applySecondaryIndexes nodeEngine primary oldValue newValue) := by
  apply ite
  · exact fun _ => pure trivial
  · intro _
    refine registry.seq fun g _ => ?_
    refine (anyOrder _).seq fun added hadded => ?_
    have hadd : Acts clk univ plainKeys [] (fun _ => True)
        (added.forM (VeltrixDB.Storage.putIndexEntry nodeEngine)) := by
      apply forM_hidden
      intro k hk
      have hmem := mem_of_mem_filter (hadded.mem_iff.mp hk)
      exact putIndexEntry (isInternalIndexKey_of_mem_secondaryKeysFor (mem_dedup.mp hmem)).1
    refine hadd.seq fun _ _ => ?_
    refine (anyOrder _).seq fun obsolete hobsolete => ?_
    apply forM_hidden
    intro k hk
    have hmem := mem_of_mem_filter (hobsolete.mem_iff.mp hk)
    exact deleteIndexEntry (isInternalIndexKey_of_mem_secondaryKeysFor (mem_dedup.mp hmem)).1

theorem backfillFieldIndex :
    Acts clk univ plainKeys [] (fun _ => True) (backfillFieldIndex nodeEngine) := by
  refine scanKeys.seq fun keys _ => forM_hidden fun k _ => ?_
  apply ite
  · exact fun _ => pure trivial
  · intro _
    refine (get k).seq fun value _ => ?_
    cases value with
    | error => exact pure trivial
    | ok value => exact applySecondaryIndexes k [] value

theorem createFieldIndex (d : FieldIndexDef) :
    Acts clk univ plainKeys [] (fun _ => True) (createFieldIndex json nodeEngine d) := by
  refine registry.seq fun g _ => ?_
  cases g.checkFieldIndex d with
  | error => exact pure trivial
  | ok there =>
    cases there with
    | true => exact pure trivial
    | false =>
      refine (setRegistry (mem_univ _)).seq fun _ _ => ?_
      exact backfillFieldIndex.seq fun _ _ => pure trivial

theorem purgeFieldIndexEntries (name : List UInt8) :
    Acts clk univ plainKeys [] (fun _ => True) (purgeFieldIndexEntries nodeEngine name) := by
  refine (scan _).seq fun keys hkeys => forM_hidden fun k hk => ?_
  apply deleteIndexEntry
  apply (isInternalIndexKey_of_secondaryIndexPrefix _).1
  have hpre := isPrefixOf_iff_prefix.mp (hkeys k hk)
  exact isPrefixOf_iff_prefix.mpr ((prefix_append _ _).trans hpre)

theorem dropFieldIndex (name : List UInt8) :
    Acts clk univ plainKeys [] (fun _ => True) (dropFieldIndex nodeEngine name) := by
  refine registry.seq fun g _ => ite (fun _ => ?_) fun _ => pure trivial
  refine (setRegistry (mem_univ _)).seq fun _ _ => ?_
  exact (purgeFieldIndexEntries name).seq fun _ _ => pure trivial

theorem onSearchKeyPut (key value : List UInt8) :
    Acts clk univ plainKeys [] (fun _ => True) (onSearchKeyPut json nodeEngine key value) := by
  refine registry.seq fun g _ => ?_
  refine ite (fun _ => setRegistry (mem_univ _)) fun _ => ?_
  refine ite (fun _ => setRegistry (mem_univ _)) fun _ => ?_
  refine ite (fun _ => setRegistry (mem_univ _)) fun _ => ?_
  refine ite (fun _ => ?_) fun _ => pure trivial
  exact (createFieldIndex _).seq fun _ _ => pure trivial

theorem onSearchKeyDelete (key : List UInt8) :
    Acts clk univ plainKeys [] (fun _ => True) (onSearchKeyDelete nodeEngine key) := by
  refine registry.seq fun g _ => ite (fun _ => ?_) fun _ => pure trivial
  exact (dropFieldIndex _).seq fun _ _ => pure trivial

end Acts

theorem isPrefixOf_append (p ns rest : List UInt8) : p.isPrefixOf (p ++ ns ++ rest) = true := by
  apply isPrefixOf_iff_prefix.mpr
  rw [append_assoc]
  exact prefix_append _ _

theorem isInternalIndexKey_vectorPersistKey (ns id : List UInt8) :
    isInternalIndexKey (vectorPersistKey ns id) = true := by
  have hpre : vectorKeyPrefix.isPrefixOf (vectorPersistKey ns id) = true :=
    isPrefixOf_append _ _ _
  unfold isInternalIndexKey
  rw [hpre, Bool.or_true, Bool.true_or, Bool.true_or, Bool.true_or]

theorem isInternalIndexKey_textPersistKey (ns id : List UInt8) :
    isInternalIndexKey (textPersistKey ns id) = true := by
  have hpre : textKeyPrefix.isPrefixOf (textPersistKey ns id) = true := isPrefixOf_append _ _ _
  unfold isInternalIndexKey
  rw [hpre, Bool.or_true, Bool.true_or, Bool.true_or]

theorem Acts.deleteDerivedSearchKeys (id : List UInt8) :
    Acts clk univ plainKeys [] (fun _ => True) (deleteDerivedSearchKeys nodeEngine id) := by
  refine Acts.registry.seq fun g _ => (Acts.anyOrder _).seq fun keys hkeys => ?_
  apply Acts.forM_hidden
  intro k hk
  refine Acts.writeClock.seq fun c _ => (Acts.removePresent k _).hide_internal ?_
  rcases mem_append.mp (hkeys.mem_iff.mp hk) with hk | hk
  · obtain ⟨v, -, rfl⟩ := mem_map.mp hk
    exact isInternalIndexKey_vectorPersistKey v.1 id
  · obtain ⟨ns, -, rfl⟩ := mem_map.mp hk
    exact isInternalIndexKey_textPersistKey ns id

/-- What the engine does after the writes to keys of `S` is not seen under
`K`. -/
structure Hides (json : JsonParser) (clk : WriteClock) (G : Set Registry) (K S : Set Key) :
    Prop where
  indexes : ∀ primary oldValue newValue, Acts clk G K [] (fun _ => True)
    (applySecondaryIndexes nodeEngine primary oldValue newValue)
  onPut : ∀ key ∈ S, isSearchKey key = true → ∀ value, Acts clk G K [] (fun _ => True)
    (onSearchKeyPut json nodeEngine key value)
  onDelete : ∀ key ∈ S, isSearchKey key = true → Acts clk G K [] (fun _ => True)
    (onSearchKeyDelete nodeEngine key)
  derived : ∀ id, Acts clk G K [] (fun _ => True) (deleteDerivedSearchKeys nodeEngine id)

/-- It only touches reserved keys. -/
theorem Hides.plain : Hides json clk univ plainKeys univ where
  indexes := Acts.applySecondaryIndexes
  onPut key _ _ value := Acts.onSearchKeyPut key value
  onDelete key _ _ := Acts.onSearchKeyDelete key
  derived := Acts.deleteDerivedSearchKeys

variable {S : Set Key}

theorem Acts.oldIndexValue (maintain : Bool) (key : Key) :
    Acts clk G K [] (fun _ => True) (oldIndexValue nodeEngine maintain key) := by
  refine Acts.ite (fun _ => ?_) fun _ => Acts.pure trivial
  exact Acts.seq (Acts.get key) fun _ _ => Acts.pure trivial

theorem Hides.put (h : Hides json clk G K S) (hkey : key ∈ S) (value : List UInt8) (ttl : Int) :
    Acts clk G K [(key, some (putCell clk value ttl))] (fun _ => True)
      (put json nodeEngine key value ttl) := by
  refine Acts.registry.seq fun g _ => (Acts.oldIndexValue _ key).seq fun oldValue _ => ?_
  refine Acts.writeClock.seq fun c hc => ?_
  subst hc
  refine (Acts.install key (putCell c value ttl)).andThen fun _ _ => ?_
  have hhook : Acts c G K [] (fun _ => True)
      (if isSearchKey key then VeltrixDB.Storage.onSearchKeyPut json nodeEngine key value
        else Pure.pure () : StoreM Unit) :=
    Acts.ite (fun hs => h.onPut key hkey hs value) fun _ => Acts.pure trivial
  refine Acts.ite (fun _ => ?_) fun _ => hhook
  exact (h.indexes _ _ _).seq fun _ _ => hhook

theorem Hides.delete (h : Hides json clk G K S) (hkey : key ∈ S) :
    Acts clk G K [(key, none)] (fun _ => True) (delete nodeEngine key) := by
  refine Acts.registry.seq fun g _ => (Acts.oldIndexValue _ key).seq fun oldValue _ => ?_
  refine Acts.writeClock.seq fun c _ => (Acts.existed key).seq fun existed _ => ?_
  refine (Acts.remove key c.stampUs).andThen fun _ _ => ?_
  have hhook : Acts clk G K [] (fun _ => True)
      (if isSearchKey key then VeltrixDB.Storage.onSearchKeyDelete nodeEngine key
        else if existed && !isInternalIndexKey key then
          VeltrixDB.Storage.deleteDerivedSearchKeys nodeEngine key
        else Pure.pure () : StoreM Unit) := by
    refine Acts.ite (h.onDelete key hkey) fun _ => ?_
    exact Acts.ite (fun _ => h.derived key) fun _ => Acts.pure trivial
  refine Acts.ite (fun _ => ?_) fun _ => hhook
  exact (h.indexes _ _ _).seq fun _ _ => hhook

theorem filter_key_map_some (l : List (Key × Cell)) (k : Key) :
    ((l.map fun e => (e.1, some e.2)).filter fun e => e.1 = k) =
      (l.filter fun e => e.1 = k).map fun e => (e.1, some e.2) := by
  rw [filter_map]
  rfl

theorem Hides.multiPutSeparate (h : Hides json clk G K S) {reqs : List PutReq}
    (hkeys : ∀ r ∈ reqs, r.key ∈ S) (htime : ∀ r ∈ reqs, r.time = none) :
    Acts clk G K (reqs.map fun r => (r.key, some (putCell clk r.value r.ttl))) (fun _ => True)
      (multiPutSeparate json nodeEngine reqs) := by
  have hat : ∀ {γ : Type} (r : PutReq) (x : StoreM γ), r ∈ reqs →
      nodeEngine.atTime r.time x = x := by
    intro γ r x hr
    rw [htime r hr]
    rfl
  refine Acts.registry.seq fun g _ => ?_
  have holds : Acts clk G K [] (fun olds => olds.length = reqs.length)
      (reqs.mapM fun r => nodeEngine.atTime r.time (VeltrixDB.Storage.oldIndexValue nodeEngine
        (!g.rules.isEmpty && !isInternalIndexKey r.key) r.key)) := by
    refine Acts.mapM (P := fun _ => True) fun r hr => ?_
    rw [hat r _ hr]
    exact Acts.oldIndexValue _ r.key
  refine holds.seq fun olds _ => ?_
  refine Acts.writeClock.seq fun c hc => ?_
  subst hc
  refine (Acts.diskOrder _).seq fun installs hinstalls => ?_
  have hloop : Acts c G K (installs.map fun e => (e.1, some e.2)) (fun _ => True)
      (installs.forM fun e => nodeEngine.installAround e.1 e.2) :=
    Acts.forM_map fun e _ => Acts.installAround e.1 e.2
  have hcells : ∀ σ : Keyspace, σ.write (installs.map fun e => (e.1, some e.2)) =
      σ.write (reqs.map fun r => (r.key, some (putCell c r.value r.ttl))) := by
    intro σ
    have hreqs : (reqs.map fun r => (r.key, some (putCell c r.value r.ttl))) =
        (reqs.map fun r => (r.key, putCell (r.time.getD c) r.value r.ttl)).map
          fun e => (e.1, some e.2) := by
      rw [map_map]
      apply map_congr_left
      intro r hr
      rw [comp_apply, htime r hr, Option.getD_none]
    rw [hreqs]
    apply Keyspace.write_congr
    intro k
    rw [filter_key_map_some, filter_key_map_some, hinstalls k]
  refine (hloop.congr hcells).andThen fun _ _ => ?_
  have hhook : Acts c G K [] (fun _ => True)
      (reqs.forM fun r => if isSearchKey r.key then
        VeltrixDB.Storage.onSearchKeyPut json nodeEngine r.key r.value
        else Pure.pure () : StoreM Unit) := by
    apply Acts.forM_hidden
    intro r hr
    exact Acts.ite (fun hs => h.onPut r.key (hkeys r hr) hs r.value) fun _ => Acts.pure trivial
  refine Acts.ite (fun _ => ?_) fun _ => hhook
  refine Acts.seq (Q := fun _ => True) (Acts.forM_hidden fun e he => ?_) fun _ _ => hhook
  rw [hat e.1 _ (of_mem_zip he).1]
  exact h.indexes _ _ _

theorem Hides.multiPutGrouped (h : Hides json clk G K S) {reqs : List PutReq}
    (hkeys : ∀ r ∈ reqs, r.key ∈ S) (htime : ∀ r ∈ reqs, r.time = none) :
    Acts clk G K (reqs.map fun r => (r.key, some (putCell clk r.value r.ttl))) (fun _ => True)
      (multiPutGrouped json nodeEngine reqs) := by
  have hall : reqs.all (·.time.isNone) = true :=
    all_eq_true.mpr fun r hr => by rw [htime r hr]; rfl
  unfold VeltrixDB.Storage.multiPutGrouped
  rw [if_pos hall]
  refine (Acts.shardOrder _).seq fun grouped hgrouped => ?_
  have hmem : ∀ r ∈ grouped, r ∈ reqs := by
    intro r hr
    have hkey : r ∈ grouped.filter fun r' => r'.key = r.key := mem_filter.mpr ⟨hr, by simp⟩
    rw [hgrouped] at hkey
    exact (mem_filter.mp hkey).1
  have hloop : Acts clk G K (grouped.map fun r => (r.key, some (putCell clk r.value r.ttl)))
      (fun _ => True) (grouped.forM fun r =>
        VeltrixDB.Storage.put json nodeEngine r.key r.value r.ttl) :=
    Acts.forM_map fun r hr => h.put (hkeys r (hmem r hr)) r.value r.ttl
  refine hloop.congr fun σ => Keyspace.write_congr _ fun k => ?_
  rw [filter_map, filter_map]
  exact congrArg _ (hgrouped k)

theorem Hides.multiPut (h : Hides json clk G K S) {reqs : List PutReq}
    (hkeys : ∀ r ∈ reqs, r.key ∈ S) (htime : ∀ r ∈ reqs, r.time = none) :
    Acts clk G K (reqs.map fun r => (r.key, some (putCell clk r.value r.ttl))) (fun _ => True)
      (multiPut json nodeEngine reqs) := by
  refine Acts.ite (fun hnil => ?_) fun _ => ?_
  · rw [isEmpty_iff.mp hnil]
    exact Acts.pure trivial
  have hmode : Acts clk G K [] (fun _ => True) nodeEngine.keyValueSeparation :=
    fun _ hs => ⟨trivial, hs, fun _ _ => .refl _ _⟩
  exact hmode.seq fun _ _ => Acts.ite (fun _ => h.multiPutSeparate hkeys htime)
    fun _ => h.multiPutGrouped hkeys htime

end Acts

/-! ## Transactions -/

def TxnOp.key : TxnOp → Key
  | .set key _ _ | .setIf key _ _ _ | .delete key => key

def TxnOp.effect (clk : WriteClock) : TxnOp → Key × Option Cell
  | .set key value ttl | .setIf key value ttl _ => (key, some (putCell clk value ttl))
  | .delete key => (key, none)

section Commit

variable {json : JsonParser} {clk : WriteClock} {G : Set Registry} {K S : Set Key}
  {ops : List TxnOp} {op : TxnOp}

namespace TxnOp

end TxnOp

/-- The staged operations, one by one. -/
theorem Hides.staged (h : Hides json clk G K S) (hkeys : ∀ op ∈ ops, op.key ∈ S) :
    Acts clk G K (ops.map (effect clk)) (fun _ => True)
      (ops.forM (apply json nodeEngine)) := by
  apply Acts.forM_map
  intro op hop
  cases op with
  | set _ value ttl | setIf _ value ttl => exact h.put (hkeys _ hop) value ttl
  | delete => exact h.delete (hkeys _ hop)

namespace TxnOp

end TxnOp

/-! ### Guards -/

/-- `KeyVersion` at `clk`. -/
def NodeStore.version (clk : WriteClock) (s : NodeStore) (key : Key) : Nat :=
  match s.cells.read key clk.nowUs with
  | none => 0
  | some c => c.token s.clock.floor

theorem NodeStore.Steady.liveCell (hs : s.Steady clk G) (key : Key) :
    ∃ n, NodeStore.liveCell key s =
      ⟨s.cells.read key clk.nowUs, { s with clocks := fun i => s.clocks (i + n) }, true⟩ := by
  unfold NodeStore.liveCell Keyspace.read
  split
  next hnone =>
    rw [hnone]
    exact ⟨0, rfl⟩
  next c hc =>
    obtain ⟨n, hn⟩ := hs.decisionNowUs
    rw [hc]
    exact ⟨n, StoreM.bind_eq hn _⟩

theorem NodeStore.Steady.token (hs : s.Steady clk G) (key : Key) :
    ∃ n, nodeEngine.token key s =
      ⟨s.version clk key, { s with clocks := fun i => s.clocks (i + n) }, true⟩ := by
  obtain ⟨n, hn⟩ := hs.liveCell key
  refine ⟨n, ?_⟩
  show NodeStore.token key s = _
  unfold NodeStore.token NodeStore.version
  rw [StoreM.bind_eq hn]
  cases s.cells.read key clk.nowUs with
  | none | some => rfl

/-- The guards are judged in the state before the transaction. -/
theorem NodeStore.Steady.checkGuards (hs : s.Steady clk G) (gs : List (Key × Nat)) :
    ∃ n, VeltrixDB.Storage.checkGuards nodeEngine gs s =
      ⟨gs.all fun g => decide (s.version clk g.1 = g.2),
        { s with clocks := fun i => s.clocks (i + n) }, true⟩ := by
  induction gs generalizing s with
  | nil => exact ⟨0, rfl⟩
  | cons g gs ih =>
    obtain ⟨n, hn⟩ := hs.token g.1
    have hstep : VeltrixDB.Storage.checkGuards nodeEngine (g :: gs) s =
        (if s.version clk g.1 ≠ g.2 then Pure.pure false
          else VeltrixDB.Storage.checkGuards nodeEngine gs : StoreM Bool)
          { s with clocks := fun i => s.clocks (i + n) } := StoreM.bind_eq hn _
    rw [hstep, all_cons]
    by_cases hg : s.version clk g.1 = g.2
    · obtain ⟨m, hm⟩ := ih (hs.tick n)
      refine ⟨n + m, ?_⟩
      rw [if_neg (not_not_intro hg), hm, decide_eq_true hg]
      simp only [Nat.add_assoc, Nat.add_comm n m]
      rfl
    · refine ⟨n, ?_⟩
      rw [if_pos hg, decide_eq_false hg]
      rfl

/-- A commit whose guards hold, from a state that only the clocks tell from the first. -/
theorem NodeStore.Steady.commit (hs : s.Steady clk G) (json : JsonParser) (ops : List TxnOp) :
    ∃ n, VeltrixDB.Storage.commit json nodeEngine ops s =
      if (∀ g ∈ ops.filterMap guard, s.version clk g.1 = g.2) then
        (do
          VeltrixDB.Storage.multiPut json nodeEngine (ops.filterMap putReq)
          (ops.filterMap delete?).forM (VeltrixDB.Storage.delete nodeEngine)
          return none : StoreM (Option ApplyError)) { s with clocks := fun i => s.clocks (i + n) }
      else ⟨some .txnConflict, { s with clocks := fun i => s.clocks (i + n) }, true⟩ := by
  obtain ⟨n, hn⟩ := hs.checkGuards (ops.filterMap guard)
  refine ⟨n, (StoreM.bind_eq hn _).trans ?_⟩
  by_cases hg : ∀ g ∈ ops.filterMap guard, s.version clk g.1 = g.2
  · have hall : ((ops.filterMap guard).all fun g => decide (s.version clk g.1 = g.2)) = true :=
      all_eq_true.mpr fun g hmem => decide_eq_true (hg g hmem)
    rw [if_pos hg, hall]
    rfl
  · have hall : ((ops.filterMap guard).all fun g => decide (s.version clk g.1 = g.2)) = false := by
      apply Bool.eq_false_iff.mpr
      intro htrue
      exact hg fun g hmem => of_decide_eq_true (all_eq_true.mp htrue g hmem)
    rw [if_neg hg, hall]
    rfl

end Commit

def NodeStore.fresh : NodeStore where
  index := SortedTable.empty
  cache := fun _ => none
  clock := ⟨0, 0⟩
  cur := none
  registry := ⟨[], [], [], []⟩
  kvSep := true
  numDisks := 1
  clocks := fun _ => 0
  orders := fun _ => ⟨id, fun l => List.Perm.refl l⟩
  disks := fun _ => ⟨id, fun _ _ => rfl⟩
  shards := fun _ => ⟨id, fun _ _ => rfl⟩
  keeps := fun _ _ => true

def JsonParser.trivial : JsonParser := ⟨fun _ => none, fun _ => none⟩

namespace NodeStore

end NodeStore

end VeltrixDB.Storage
