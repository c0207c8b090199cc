import BitcoinExplorer.Iter.InMemInv
import BitcoinExplorer.Lib.Delivery

/-!
# The in-memory cache under every schedule

`Takes` says what `connect_outpoints` does operation by operation, `Phase` where a task stands
within that; with the invariant of the cache they make the proof outline `outline`.

* **`inMem_iterator_delivers`**: on a valid chain every schedule of the iterator delivers the
  expected blocks, and with the last one the cache holds exactly the unspent outputs.
* `delivers_of_connectable`: the blocks also come out on every `Connectable` chain, where txids may
  repeat.
-/

namespace BitcoinExplorer

open Rust Conc SpendMap

namespace InMem

variable {rb : RustBitcoin} {tgt : Target} {chain : List Block} {Blk Tx Out : Type}
  {CT : ConnectedTx Tx Out} {g : Ghost} {cache : Cache Out}

/-! ## What connecting a block does, operation by operation -/

section Takes

variable (tgt) {B C : Type} (f : OutPoint → Option Out)

/-- The program removes a key and goes on as `rest`. -/
def AtKey (rest : Prog (mutexes tgt Out) (Outcome Unit B) → Prop) (txid : Txid)
    (p : Prog (mutexes tgt Out) (Outcome Unit B)) : Prop :=
  ∃ k, p = .op (.removeKey txid) k ∧ rest (k ())

/-- The program empties the slot of `o` in `cell`; given the output of `o` it goes on as `rest`,
after removing the key if that emptied the cell. -/
def AtSlot (rest : Prog (mutexes tgt Out) (Outcome Unit B) → Prop) (o : OutPoint) (cell : Nat)
    (p : Prog (mutexes tgt Out) (Outcome Unit B)) : Prop :=
  ∃ k, p = .op (.remove cell o.vout.toNat) k ∧ ∀ out, f o = some out →
    rest (k (.ok (some out, false))) ∧ AtKey tgt rest o.txid (k (.ok (some out, true)))

/-- The program takes the outpoints one by one and, given their outputs, returns `r`. -/
def Takes (r : Outcome Unit B) : List OutPoint → Prog (mutexes tgt Out) (Outcome Unit B) → Prop
  | [], p => p = .ret r
  | o :: os, p => ∃ k, p = .op (.get o.txid) k ∧
      ∀ cell, AtSlot tgt f (Takes r os) o cell (k (some cell))

variable {tgt f}

/-- Programs that take outpoints compose. -/
theorem Takes.andThen {a : B} {r : Outcome Unit C} {q : B → Prog (mutexes tgt Out) (Outcome Unit C)}
    {os' : List OutPoint} (hq : Takes tgt f r os' (q a)) : ∀ {os : List OutPoint}
    {p : Prog (mutexes tgt Out) (Outcome Unit B)}, Takes tgt f (.ok a) os p →
      Takes tgt f r (os ++ os') (p.andThen q)
  | [], p, hp => by
    obtain rfl : p = .ret (.ok a) := hp
    exact hq
  | o :: os, p, hp => by
    obtain ⟨k, rfl, hk⟩ := hp
    refine ⟨_, rfl, fun cell => ?_⟩
    obtain ⟨k', hk', hslot⟩ := hk cell
    refine ⟨_, congrArg (Prog.andThen · q) hk', fun out hout => ?_⟩
    obtain ⟨hnext, k'', hk'', hkey⟩ := hslot out hout
    exact ⟨Takes.andThen hq hnext, _, congrArg (Prog.andThen · q) hk'', Takes.andThen hq hkey⟩

/-- The input loop takes the outpoints of its inputs. -/
theorem takes_inputLoop {m : Ledger} : ∀ {inputs : List TxIn} {tx t : B} {CT : ConnectedTx B Out},
    CT.addInputs m (spends inputs) tx = some t →
    Takes tgt (fun o => (m o).map CT.into) (.ok t) (spends inputs) (inputLoop tgt CT inputs tx)
  | [], tx, t, CT, h => by
    obtain rfl := Option.some.inj h
    rfl
  | input :: inputs, tx, t, CT, h => by
    unfold inputLoop
    by_cases hnull : input.previousOutput.isNull = true
    · rw [spends_cons_null hnull] at h ⊢
      rw [if_pos hnull]
      exact takes_inputLoop h
    · rw [spends_cons (by simpa using hnull)] at h ⊢
      rw [if_neg hnull]
      rw [ConnectedTx.addInputs_cons] at h
      obtain ⟨out, hout, h⟩ := Option.bind_eq_some_iff.mp h
      refine ⟨_, rfl, fun cell => ⟨_, rfl, fun out' hout' => ?_⟩⟩
      obtain rfl : CT.into out = out' := Option.some.inj ((congrArg _ hout).symm.trans hout')
      exact ⟨takes_inputLoop h, _, rfl, takes_inputLoop h⟩

/-- The transaction loop takes the outpoints of its transactions. -/
theorem takes_txLoop {m : Ledger} {CB : ConnectedBlock B C Out} : ∀ {txs : List Transaction}
    {b b' : B}, CB.addTxs m txs b = some b' →
    Takes tgt (fun o => (m o).map CB.tx.into) (.ok b') (txs.flatMap fun tx => spends tx.input)
      (txLoop tgt CB txs b)
  | [], b, b', h => by
    obtain rfl := Option.some.inj h
    rfl
  | tx :: txs, b, b', h => by
    rw [ConnectedBlock.addTxs_cons] at h
    obtain ⟨t, ht, h⟩ := Option.bind_eq_some_iff.mp h
    rw [List.flatMap_cons]
    exact Takes.andThen (a := t) (q := fun t => txLoop tgt CB txs (CB.addTx b t)) (takes_txLoop h)
      (takes_inputLoop ht)

end Takes

/-- **`connect_outpoints` takes the outpoints of its block**, one by one in order. -/
theorem takes_connectOutpoints {m : Ledger} {CB : ConnectedBlock Blk Tx Out} {block : Block}
    {b : Blk} (h : CB.connectWith rb m block = some b) :
    Takes tgt (fun o => (m o).map CB.tx.into) (.ok b) block.spends
      (connectOutpoints rb tgt CB block) :=
  takes_txLoop h

/-! ## What each task has still to do -/

section Tasks

variable (rb tgt chain) (CB : ConnectedBlock Blk Tx Out)

/-- Stage 1 of a height: still to insert, or inserted. -/
def Inserting (g : Progress) (h : Nat) (p : Prog (mutexes tgt Out) (Outcome Unit Block)) : Prop :=
  ∀ blk, chain[h]? = some blk →
    (¬ g.written h ∧
      p = .op (.extend (blk.txdata.map (newEntry rb CB.tx))) fun _ => .ret (.ok blk)) ∨
    (g.written h ∧ p = .ret (.ok blk))

/-- The converted outputs the outpoints name. -/
def spentOutput (o : OutPoint) : Option Out := (namedOutput rb chain o).map CB.tx.into

/-- Where stage 2 of height `h` stands with the outpoints left to take: before a lookup, holding a
cell of the next txid, or about to remove a key all of whose outputs were taken. -/
inductive Phase (g : Ghost) (h : Nat) (r : Outcome Unit Blk) (rest : List OutPoint)
    (p : Prog (mutexes tgt Out) (Outcome Unit Blk)) : Prop
  | idle (hp : Takes tgt (spentOutput rb chain CB) r rest p)
      (hnone : ∀ txid, g.pending txid ≠ some h)
  | holding (o : OutPoint) (os : List OutPoint) (cell : Nat) (hrest : rest = o :: os)
      (howner : g.owner cell = some o.txid)
      (hp : AtSlot tgt (spentOutput rb chain CB)
        (Takes tgt (spentOutput rb chain CB) r os) o cell p)
      (hnone : ∀ txid, g.pending txid ≠ some h)
  | dropping (txid : Txid) (hp : AtKey tgt (Takes tgt (spentOutput rb chain CB) r rest) txid p)
      (honly : ∀ txid', g.pending txid' = some h → txid' = txid)
      (hall : ∀ vout, (namedOutput rb chain ⟨txid, vout⟩).isSome = true → g.taken ⟨txid, vout⟩)

/-- Stage 2 of a height: not begun, or some of its outpoints are taken and none of the others. -/
def Connecting (g : Ghost) (h : Nat) :
    Option (Prog (mutexes tgt Out) (Outcome Unit Blk)) → Prop
  | none => (∀ blk, chain[h]? = some blk → ∀ o ∈ blk.spends, ¬ g.taken o) ∧
      ∀ txid, g.pending txid ≠ some h
  | some p => ∃ blk b done rest, chain[h]? = some blk ∧ expectedBlock CB rb chain h = some b ∧
      (∀ j ≤ h, g.written j) ∧ blk.spends = done ++ rest ∧ (∀ o ∈ done, g.taken o) ∧
      (∀ o ∈ rest, ¬ g.taken o) ∧ Phase rb tgt chain CB g h (.ok b) rest p

/-- A step from `g` to `g'` that is not one of stage 2 of height `j`. -/
structure StepOfOther (j : Nat) (g g' : Ghost) : Prop where
  written : ∀ h, g.written h → g'.written h
  taken : ∀ o, g.taken o → g'.taken o
  others : ∀ blk, chain[j]? = some blk → ∀ o ∈ blk.spends, g'.taken o → g.taken o
  owner : ∀ cell txid, g.owner cell = some txid → g'.owner cell = some txid
  pending : ∀ txid, g'.pending txid = some j → g.pending txid = some j

end Tasks

variable {CB : ConnectedBlock Blk Tx Out}

/-- The steps of other tasks leave a stage-2 task as it is. -/
theorem Connecting.of_other {j : Nat} {g' : Ghost} (hs : StepOfOther chain j g g')
    {p : Option (Prog (mutexes tgt Out) (Outcome Unit Blk))}
    (hp : Connecting rb tgt chain CB g j p) : Connecting rb tgt chain CB g' j p := by
  cases p with
  | none =>
    exact ⟨fun blk hblk o ho ht => hp.1 blk hblk o ho (hs.others blk hblk o ho ht),
      fun txid hpend => hp.2 txid (hs.pending txid hpend)⟩
  | some p =>
    obtain ⟨blk, b, done, rest, hblk, hb, hw, hsplit, hdone, hrest, hphase⟩ := hp
    refine ⟨blk, b, done, rest, hblk, hb, fun i hi => hs.written i (hw i hi), hsplit,
      fun o ho => hs.taken o (hdone o ho), fun o ho ht => hrest o ho
        (hs.others blk hblk o (hsplit ▸ List.mem_append_right _ ho) ht), ?_⟩
    cases hphase with
    | idle hp hnone => exact .idle hp fun txid hpend => hnone txid (hs.pending txid hpend)
    | holding o os cell hrest howner hp hnone =>
      exact .holding o os cell hrest (hs.owner cell _ howner) hp
        fun txid hpend => hnone txid (hs.pending txid hpend)
    | dropping txid hp honly hall =>
      exact .dropping txid hp (fun txid' hpend => honly txid' (hs.pending txid' hpend))
        fun vout hsome => hs.taken _ (hall vout hsome)

/-- Taking an outpoint is a step of the one block that spends it. -/
theorem stepOfOther_takeFrom (hc : (chainSpends chain).Nodup) {h j : Nat} (hne : j ≠ h)
    {blk : Block} (hblk : chain[h]? = some blk) {o : OutPoint} (ho : o ∈ blk.spends)
    (isEmpty : Bool) :
    StepOfOther chain j g (g.takeFrom o isEmpty h) where
  written _ hw := hw
  taken _ ht := Or.inl ht
  others := by
    rintro blk' hblk' o' ho' (ht | rfl)
    · exact ht
    · exact absurd ho (spends_disjoint hc hne hblk' hblk ho')
  owner _ _ h := h
  pending := by
    intro txid hp
    unfold Ghost.takeFrom at hp
    dsimp only at hp
    split at hp
    · by_cases he : txid = o.txid
      · rw [he, Function.update_self] at hp
        exact absurd (Option.some.inj hp).symm hne
      · rwa [Function.update_of_ne he] at hp
    · exact hp

theorem stepOfOther_dropKey (txid : Txid) (j : Nat) : StepOfOther chain j g (g.dropKey txid) where
  written _ hw := hw
  taken _ ht := ht
  others _ _ _ _ ht := ht
  owner _ _ h := h
  pending := by
    intro txid' hp
    by_cases he : txid' = txid
    · rw [he] at hp
      exact absurd (hp.symm.trans (Function.update_self _ _ _)) (by simp)
    · exact (Function.update_of_ne he _ _).symm.trans hp

/-- **The proof outline of the in-memory iterator** on a connectable chain. -/
def outline (tgt : Target) (CB : ConnectedBlock Blk Tx Out)
    (getBlock : Nat → Outcome Error Block) (hc : Connectable rb chain) :
    Outline (connectedBlockIter rb tgt CB getBlock chain.length) Ghost where
  shared := CacheInv rb CB.tx chain
  task1 g := Inserting rb tgt chain CB g.toProgress
  task2 := Connecting rb tgt chain CB
  step1 := by
    intro g cache h o k hlt hi hp
    have hblk : chain[h]? = some chain[h] := List.getElem?_eq_getElem hlt
    rcases hp _ hblk with ⟨hw, he⟩ | ⟨-, he⟩
    · cases he
      obtain ⟨owner, hi', hkeep⟩ := hi.write hc.binds hblk hw
      refine ⟨_, hi', ?_, ?_, fun j p hp => hp.of_other ?_⟩
      · intro blk' hblk'
        obtain rfl := Option.some.inj (hblk.symm.trans hblk')
        exact Or.inr ⟨Or.inr rfl, rfl⟩
      · intro j p hne hp blk' hblk'
        rcases hp blk' hblk' with ⟨hw', he'⟩ | ⟨hw', he'⟩
        · exact Or.inl ⟨fun hj => hj.elim hw' hne, he'⟩
        · exact Or.inr ⟨Or.inl hw', he'⟩
      · exact ⟨fun _ => Or.inl, fun _ ht => ht, fun _ _ _ _ ht => ht, hkeep, fun _ hp => hp⟩
    · cases he
  hand := by
    intro g h b hlt hall hp hn
    have hblk : chain[h]? = some chain[h] := List.getElem?_eq_getElem hlt
    obtain ⟨b', hb', hconnect⟩ := hc.expectedBlock_eq CB hblk
    have hwritten : ∀ j ≤ h, g.written j := by
      intro j hj
      obtain ⟨blk', hblk'⟩ := hall j hj
      rcases hblk' _ (List.getElem?_eq_getElem (lt_of_le_of_lt hj hlt)) with ⟨-, he⟩ | ⟨hw, -⟩
      · cases he
      · exact hw
    rcases hp _ hblk with ⟨-, he⟩ | ⟨-, he⟩
    · cases he
    · cases he
      exact ⟨_, b', [], _, hblk, hb', hwritten, rfl, fun _ ho => absurd ho List.not_mem_nil,
        hn.1 _ hblk, .idle (takes_connectOutpoints hconnect) hn.2⟩
  step2 := by
    intro g cache h op k hi hp
    obtain ⟨blk, b, done, rest, hblk, hb, hw, hsplit, hdone, hrest, hphase⟩ := hp
    cases hphase with
    | idle hp hnone =>
      -- the lookup finds a cell of the txid
      cases rest with
      | nil => cases hp
      | cons o os =>
        obtain ⟨k', he, hnext⟩ := hp
        cases he
        have hsp : o ∈ blk.spends := hsplit ▸ List.mem_append_right _ List.mem_cons_self
        obtain ⟨out, ha⟩ := Progress.available_of_spends hc hblk hw hsp
        obtain ⟨cell, hget⟩ := hi.present o out ha (hrest o List.mem_cons_self)
        refine ⟨g, hi, ?_, fun j p hp => hp, fun j p _ hp => hp⟩
        refine ⟨blk, b, done, o :: os, hblk, hb, hw, hsplit, hdone, hrest, ?_⟩
        refine .holding o os cell rfl (hi.cells.map _ _ hget) ?_ hnone
        dsimp only
        rw [hget]
        exact hnext cell
    | holding o os cell hcons howner hp hnone =>
      -- the slot of the outpoint still holds its output
      obtain ⟨k', he, hnext⟩ := hp
      cases he
      subst hcons
      have hsp : o ∈ blk.spends := hsplit ▸ List.mem_append_right _ List.mem_cons_self
      obtain ⟨out, ha⟩ := Progress.available_of_spends hc hblk hw hsp
      have hout := ha.named hc.binds
      obtain ⟨v, hv, hslot, hexec⟩ :=
        hi.exec_remove howner hout (hrest o List.mem_cons_self)
      rw [hexec]
      have hi' := hi.remove howner hv hslot (mem_chainSpends.mpr ⟨h, blk, hblk, hsp⟩) ⟨out, ha⟩ h
      refine ⟨g.takeFrom o v.isEmpty h, hi', ?_, fun j p hp => hp,
        fun j p hne hp => hp.of_other (stepOfOther_takeFrom hc.spentOnce hne hblk hsp _)⟩
      have hnd := spends_nodup hc.spentOnce hblk
      rw [hsplit] at hnd
      refine ⟨blk, b, done ++ [o], os, hblk, hb, hw, by simp [hsplit], ?_, ?_, ?_⟩
      · intro o' ho'
        rcases List.mem_append.mp ho' with ho' | ho'
        · exact Or.inl (hdone o' ho')
        · exact Or.inr (List.mem_singleton.mp ho')
      · rintro o' ho' (ht | rfl)
        · exact hrest o' (List.mem_cons_of_mem _ ho') ht
        · exact (List.nodup_cons.mp (List.nodup_append.mp hnd).2.1).1 ho'
      · obtain ⟨hgo, hkey⟩ := hnext _ (congrArg _ hout)
        unfold Ghost.takeFrom
        cases hempty : v.isEmpty with
        | false => exact .idle hgo hnone
        | true =>
          refine .dropping o.txid hkey (fun txid' hpend => ?_) fun vout hsome => ?_
          · by_contra hne
            exact hnone txid' ((Function.update_of_ne hne _ _).symm.trans hpend)
          · refine hi'.cells.all_taken howner ?_ vout hsome
            dsimp only
            rw [Function.update_self]
            exact hempty
    | dropping txid hp honly hall =>
      obtain ⟨k', he, hnext⟩ := hp
      cases he
      refine ⟨g.dropKey txid, hi.dropKey hc.binds hall, ?_, fun j p hp => hp,
        fun j p _ hp => hp.of_other (stepOfOther_dropKey txid j)⟩
      refine ⟨blk, b, done, rest, hblk, hb, hw, hsplit, hdone, hrest, .idle hnext ?_⟩
      intro txid' hpend
      by_cases he : txid' = txid
      · rw [he] at hpend
        exact absurd (hpend.symm.trans (Function.update_self _ _ _)) (by simp)
      · exact he (honly txid' ((Function.update_of_ne he _ _).symm.trans hpend))

section Iterator

variable {getBlock : Nat → Outcome Error Block}

theorem outline_init (hc : Connectable rb chain)
    (hget : ∀ h blk, chain[h]? = some blk → getBlock h = .ok blk) :
    (outline tgt CB getBlock hc).Holds Ghost.start
      ((connectedBlockIter rb tgt CB getBlock chain.length).init emptyCache) where
  shared := by
    refine ⟨⟨?_, ?_, ?_, ?_, ?_, ?_⟩, ?_, fun _ h => h.elim⟩
    · exact fun _ _ h => absurd h (by simp [Ghost.start])
    · exact fun _ _ h => absurd h (by simp [Pipeline.init, emptyCache])
    · exact fun _ _ h => absurd h (by simp [Ghost.start])
    · exact fun _ _ h => absurd h (by simp [Ghost.start])
    · exact fun _ _ _ h => absurd h (by simp [Ghost.start])
    · exact fun _ _ _ h => absurd h (by simp [Ghost.start])
    · rintro _ _ ⟨_, _, hw, _⟩
      exact hw.elim
  task1 h _ blk hblk := by
    refine Or.inl ⟨id, ?_⟩
    change updateUnspentCache rb tgt CB.tx getBlock h = _
    unfold updateUnspentCache
    rw [hget h blk hblk]
    rfl
  task2 _ := ⟨fun _ _ _ _ => id, fun _ h => absurd h (by simp [Ghost.start])⟩

/-- A connecting task that has returned has the expected block, has taken all it spends and has no
key to remove. -/
theorem Connecting.ret {h : Nat} {r : Outcome Unit Blk}
    (hp : Connecting rb tgt chain CB g h (some (.ret r))) :
    ∃ blk b, chain[h]? = some blk ∧ expectedBlock CB rb chain h = some b ∧ r = .ok b ∧
      (∀ o ∈ blk.spends, g.taken o) ∧ ∀ txid, g.pending txid ≠ some h := by
  obtain ⟨blk, b, done, rest, hblk, hb, -, hsplit, hdone, -, hphase⟩ := hp
  cases hphase with
  | idle hp hnone =>
    cases rest with
    | nil =>
      cases hp
      rw [List.append_nil] at hsplit
      exact ⟨blk, b, hblk, hb, rfl, hsplit ▸ hdone, hnone⟩
    | cons o os =>
      obtain ⟨k, he, -⟩ := hp
      cases he
  | holding o os cell hcons howner hp hnone =>
    obtain ⟨k, he, -⟩ := hp
    cases he
  | dropping txid hp honly hall =>
    obtain ⟨k, he, -⟩ := hp
    cases he

theorem outline_succeeds {hc : Connectable rb chain} :
    (outline tgt CB getBlock hc).Succeeds (expectedBlock CB rb chain) where
  ok1 := by
    intro g h r hlt hp
    rcases hp _ (List.getElem?_eq_getElem hlt) with ⟨-, he⟩ | ⟨-, he⟩
    · cases he
    · cases he
      rfl
  ok2 := by
    intro g h r hp
    obtain ⟨-, b, -, hb, hr, -⟩ := Connecting.ret hp
    exact ⟨b, hb, hr⟩

/-- **Every schedule delivers the blocks of a connectable chain**, also with repeated txids. -/
theorem delivers_of_connectable (hc : Connectable rb chain)
    (hget : ∀ h blk, chain[h]? = some blk → getBlock h = .ok blk)
    {s : Config (mutexes tgt Out) Unit Block Blk}
    (hr : (connectedBlockIter rb tgt CB getBlock chain.length).Reachable emptyCache s) :
    (connectedBlockIter rb tgt CB getBlock chain.length).Delivers
      (expectedBlock CB rb chain) s := by
  obtain ⟨g, hg⟩ := Outline.sound (outline_init hc hget) hr
  exact outline_succeeds.delivers hr hg

/-- **The in-memory iterator is correct under every schedule.** On a valid chain whose transactions
each have an output, whatever the interleaving of the two stages: no task fails, the blocks come out
in order with every input replaced by the output it names, no schedule gets stuck or goes on forever
before the last block, and when it is out the cache finds exactly the unspent outputs and keeps
exactly the keys that have one. -/
theorem inMem_iterator_delivers (rb : RustBitcoin) (tgt : Target) (CB : ConnectedBlock Blk Tx Out)
    (getBlock : Nat → Outcome Error Block) (chain : List Block)
    (hget : ∀ h blk, chain[h]? = some blk → getBlock h = .ok blk)
    (hv : ValidChain rb chain) (hout : ∀ tx ∈ transactions chain, tx.output ≠ [])
    {s : Config (mutexes tgt Out) Unit Block Blk}
    (hr : (connectedBlockIter rb tgt CB getBlock chain.length).Reachable emptyCache s) :
    (connectedBlockIter rb tgt CB getBlock chain.length).Delivers (expectedBlock CB rb chain) s ∧
      (s.emitted.length = chain.length →
        (∀ o, s.shared.lookup o = (unspentOutputs rb chain o).map CB.tx.into) ∧
        ∀ txid, (s.shared.map txid).isSome = true ↔
          ∃ vout, (unspentOutputs rb chain ⟨txid, vout⟩).isSome = true) := by
  obtain ⟨g, hg⟩ := Outline.sound (outline_init hv.connectable hget) hr
  refine ⟨outline_succeeds.delivers hr hg, fun hl => ?_⟩
  have hdone : ∀ h, h < chain.length → ∃ c, Connecting rb tgt chain CB g h (some (.ret (.ok c))) :=
    fun h hlt => (Outline.all_done hr.wf hg hl hlt).2
  refine CacheInv.final hg.shared hv.txids hout (fun h hlt => ?_) (fun o ho => ?_)
    fun txid h hp => ?_
  · obtain ⟨⟨blk, hblk⟩, -⟩ := Outline.all_done hr.wf hg hl hlt
    rcases hblk _ (List.getElem?_eq_getElem hlt) with ⟨-, he⟩ | ⟨hw, -⟩
    · cases he
    · exact hw
  · obtain ⟨h, blk, hblk, ho⟩ := mem_chainSpends.mp ho
    obtain ⟨c, hc⟩ := hdone h (List.getElem?_eq_some_iff.mp hblk).1
    obtain ⟨blk', -, hblk', -, -, htaken, -⟩ := Connecting.ret hc
    obtain rfl := Option.some.inj (hblk.symm.trans hblk')
    exact htaken o ho
  · -- a key is only ever removed by a task of some height, and they are all through
    cases hw : s.work2 h with
    | none =>
      have := hg.task2 h
      rw [hw] at this
      exact this.2 txid hp
    | some p =>
      obtain ⟨c, hc⟩ := hdone h (hr.wf.handed h p hw).1
      obtain ⟨-, -, -, -, -, -, hnone⟩ := Connecting.ret hc
      exact hnone txid hp

/-- The sequential run over the sample chain. -/
theorem sampleChain_inMem :
    ∃ s, (connectedBlockIter sampleBitcoin ⟨true, true⟩ (fullConnectedBlock sampleBitcoin)
        (getBlockFrom sampleChain) 2).Reachable emptyCache s ∧
      Pipeline.Complete (connectedBlockIter sampleBitcoin ⟨true, true⟩
        (fullConnectedBlock sampleBitcoin) (getBlockFrom sampleChain) 2) s ∧
      s.emitted.map some = (List.range s.emitted.length).map
        (expectedBlock (fullConnectedBlock sampleBitcoin) sampleBitcoin sampleChain) := by
  obtain ⟨s, hr, hC, -⟩ := Pipeline.sequential_run (connectedBlockIter sampleBitcoin ⟨true, true⟩
    (fullConnectedBlock sampleBitcoin) (getBlockFrom sampleChain) 2) emptyCache
  exact ⟨s, hr, hC, (inMem_iterator_delivers sampleBitcoin ⟨true, true⟩ _ _ sampleChain
    getBlockFrom_eq sampleChain_valid (by decide) hr).1.emitted⟩

end Iterator

end InMem

end BitcoinExplorer
