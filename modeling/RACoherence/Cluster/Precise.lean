import RACoherence.Cluster.Producers

/-!
# Invalidations are precise

A node drops a line from its caches only because a thread of another node has stored to it and has written it
back. With `log_store` the words of a log are mask entries, so no node flushes its whole cache either.
-/

namespace RACoherence

open Function LocalCLTable ClGroup

namespace Cluster

variable {cfg : Config} {s s' : State} {a : Action} {t n cl : ℕ}

/-- Thread `t` has stored to the line and, after that, written it back. -/
def Flushed (tr : List Event) (t cl : ℕ) : Prop :=
  ∃ e₁ e₂, tr = e₁ ++ .store t cl :: e₂ ∧ .writeback t cl ∈ e₂

theorem Flushed.append {tr : List Event} (h : Flushed tr t cl) (es : List Event) :
    Flushed (tr ++ es) t cl := by
  obtain ⟨e₁, e₂, rfl, hwb⟩ := h
  exact ⟨e₁, e₂ ++ es, by simp, List.mem_append_left _ hwb⟩

theorem Flushed.of_stored {tr es : List Event} (hstore : .store t cl ∈ tr) (hwb : .writeback t cl ∈ es) :
    Flushed (tr ++ es) t cl := by
  obtain ⟨e₁, e₂, rfl⟩ := List.append_of_mem hstore
  exact ⟨e₁, e₂ ++ es, by simp, List.mem_append_right _ hwb⟩

/-! ## Words -/

/-- A mask entry that covers only lines with `P`. -/
structure EntryOf (P : ℕ → Prop) (entry : ℕ) : Prop where
  lt : entry < 2 ^ (groupIndexShift 0 + 16)
  line : ∀ cl, Covers 0 entry cl → P cl

theorem EntryOf.mono {P Q : ℕ → Prop} {entry : ℕ} (h : EntryOf P entry) (hpq : ∀ cl, P cl → Q cl) :
    EntryOf Q entry :=
  ⟨h.lt, fun cl hcov => hpq cl (h.line cl hcov)⟩

/-- What a node does for such an entry. -/
theorem EntryOf.mem_entryEvents {P : ℕ → Prop} {entry : ℕ} {e : Event} (h : EntryOf P entry)
    (he : e ∈ entryEvents n entry) : ∃ cl, e = .invalidate n cl ∧ P cl := by
  have hword : entry < 2 ^ 64 := h.lt.trans (by decide)
  have hshort : flushesCache 0 entry = false := by
    rw [flushesCache, not_isLengthBased_of_lt h.lt]
    rfl
  rw [entryEvents, hshort] at he
  obtain ⟨cl, hcl, rfl⟩ := List.mem_map.mp he
  refine ⟨cl, rfl, h.line cl ?_⟩
  have hcov := (@mem_hwLines_eagerAddrs 0 entry cl (getMask16_lt hword)).mp (by simpa [linesOf, hwLines] using hcl)
  simpa using hcov

/-- The words of the log are such entries. -/
def LogOf (P : ℕ → Prop) (log : Log) : Prop := ∀ k < log.size, EntryOf P (log.entries k)

theorem LogOf.mono {P Q : ℕ → Prop} {log : Log} (h : LogOf P log) (hpq : ∀ cl, P cl → Q cl) : LogOf Q log :=
  fun k hk => (h k hk).mono hpq

theorem LogOf.write {P : ℕ → Prop} {log : Log} {entry : ℕ} (h : LogOf P log) (he : EntryOf P entry) :
    LogOf P (log.write entry) := by
  intro k hk
  change EntryOf P (update log.entries log.size entry k)
  rw [update_apply]
  split
  · exact he
  · change k < log.size + 1 at hk
    exact h k (by omega)

/-! ## From the table to the ring -/

/-- What thread `t` has collected, copied and published is what it has stored to. -/
structure Collected (cfg : Config) (s : State) (t : ℕ) : Prop where
  table : (s.threads t).pc.collects = true → ∀ cl, Covered 0 (s.threads t).dirtyCls cl →
    .store t cl ∈ s.trace ∨ (s.threads t).pc = .store cl
  filling : ∀ k rest, (s.threads t).pc = .fill k rest → ∀ entry ∈ rest,
    EntryOf (fun cl => .store t cl ∈ s.trace) entry
  held : ∀ k rest log, (s.threads t).pc = .fill k rest → (s.rings (cfg.home t)).prod t = .hold log →
    LogOf (Flushed s.trace t) ((s.rings (cfg.home t)).buf log)

theorem Collected.initial : Collected cfg (initial cfg) t where
  table _ cl hcov := absurd hcov (not_covered_empty cl)
  filling _ _ h := by cases h
  held _ _ _ h := by cases h

/-- A position outside `write_to_log`. -/
theorem Collected.of_collects (hpc : (s.threads t).pc.collects = true)
    (htable : ∀ cl, Covered 0 (s.threads t).dirtyCls cl → .store t cl ∈ s.trace ∨ (s.threads t).pc = .store cl) :
    Collected cfg s t where
  table _ := htable
  filling k rest h := by rw [h] at hpc; cases hpc
  held k rest log h := by rw [h] at hpc; cases hpc

/-- A position in the loop of `write_to_log`. -/
theorem Collected.of_fill {k : Purpose} {rest : List ℕ} {log : ℕ} (hpc : (s.threads t).pc = .fill k rest)
    (hhold : (s.rings (cfg.home t)).prod t = .hold log)
    (hfilling : ∀ entry ∈ rest, EntryOf (fun cl => .store t cl ∈ s.trace) entry)
    (hheld : LogOf (Flushed s.trace t) ((s.rings (cfg.home t)).buf log)) : Collected cfg s t where
  table h := by rw [hpc] at h; cases h
  filling k' rest' h := by
    obtain ⟨-, rfl⟩ := ThreadPc.fill.inj (hpc.symm.trans h)
    exact hfilling
  held k' rest' log' _ h := by
    obtain rfl := LogManager.ProdPc.hold.inj (hhold.symm.trans h)
    exact hheld

/-- A position in `produce_tail` or after it. -/
theorem Collected.of_produced (hcol : (s.threads t).pc.collects = false)
    (hpc : ∀ k rest, (s.threads t).pc ≠ .fill k rest) : Collected cfg s t where
  table h := by rw [hcol] at h; cases h
  filling k rest h := absurd h (hpc k rest)
  held k rest log h := absurd h (hpc k rest)

theorem Collected.thread (h : Collected cfg s t) (htable : TableOk (s.threads t))
    (hprod : ProdOk (s.rings (cfg.home t)).buf ((s.rings (cfg.home t)).prod t) (s.threads t).pc)
    (hs : ThreadStep cfg s t s') : Collected cfg s' t := by
  cases hs with
  | @doStore cl' hpc =>
      refine .of_collects (by rw [State.pc_setPc]; rfl) fun cl hcov => .inl ?_
      simp only [State.setPc, State.setThread, State.emit, update_self] at hcov
      rcases h.table (by rw [hpc]; rfl) cl hcov with hold | hnow
      · exact List.mem_append_left _ hold
      · obtain rfl := ThreadPc.store.inj (hpc.symm.trans hnow)
        exact List.mem_append_right _ (List.mem_singleton.mpr rfl)
  | getNewLog hpc _ hr => exact .of_collects (by simp only [State.setRing, hpc]; rfl) (h.table (by rw [hpc]; rfl))
  | getLogProd hpc hr => exact .of_collects (by simp only [State.setRing, hpc]; rfl) (h.table (by rw [hpc]; rfl))
  | @gotLog k log hpc hhold =>
      -- the log is empty, and the words of the table cover what was stored to
      rw [hpc, hhold] at hprod
      obtain ⟨_, hlog, hempty⟩ := (hprod.resolve_left (by simp)).resolve_left (by simp [LogManager.ProdPc.getting])
      obtain rfl := LogManager.ProdPc.hold.inj hlog
      refine .of_fill (State.pc_setPc _ _ _) hhold (fun entry hmem => ?_) fun m hm => ?_
      · refine ⟨MaskOnly.mem_entries htable.maskOnly hmem, fun cl hcov => ?_⟩
        refine (h.table (by rw [hpc]; rfl) cl (covered_iff_entries.mpr ⟨entry, hmem, hcov⟩)).resolve_right ?_
        simp [hpc]
      · change m < ((s.rings (cfg.home t)).buf log).size at hm
        omega
  | produceTail hpc hr =>
      exact .of_produced (by rw [State.pc_setPc]; rfl) fun _ _ hfill => by rw [State.pc_setPc] at hfill; cases hfill
  | @writeEntry k entry rest r hpc hr =>
      have hentry := h.filling k _ hpc entry (by simp)
      cases LogManager.step_cases hr with
      | @write _ _ log hhold =>
          refine @Collected.of_fill cfg _ t k rest log (State.pc_setPc _ _ _) ?_ (fun e he => ?_) ?_
          · simpa [State.setPc, State.setThread, State.setRing, State.emit] using hhold
          · exact (h.filling k _ hpc e (by simp [he])).mono fun cl => List.mem_append_left _
          · simp only [State.setPc, State.setThread, State.setRing, State.emit, update_self]
            refine ((h.held k _ log hpc hhold).mono fun cl hcl => hcl.append _).write ⟨hentry.lt, fun cl hcov => ?_⟩
            exact .of_stored (hentry.line cl hcov) (mem_writebackEvents (hentry.lt.trans (by decide)) hcov)
  | publish hpc _ hr =>
      exact .of_produced (by rw [State.pc_setPc]; rfl) fun _ _ hfill => by rw [State.pc_setPc] at hfill; cases hfill
  | produceProd hpc _ hr =>
      exact .of_produced (by simp only [State.setRing, hpc]; rfl) fun _ _ hfill => by
        simp only [State.setRing, hpc] at hfill
        cases hfill
  | @finishFlush cl' clk hpc =>
      obtain ⟨hcl, hne, hgroup⟩ := htable.flush cl' (by rw [hpc]; rfl)
      have hins : insert 0 LocalCLTable.empty cl' = (false, (insert 0 LocalCLTable.empty cl').2) :=
        Prod.ext (insert_empty hgroup) rfl
      have hcov := (covered_insert_iff (maskOnly_empty 0) hgroup hins).2
      refine .of_collects (by simp [State.setThread, ThreadPc.collects]) fun cl hcl' => .inr ?_
      simp only [State.setThread, update_self] at hcl' ⊢
      rw [((hcov cl).mp hcl').resolve_left (not_covered_empty cl)]
  | finishRelease hpc =>
      refine .of_collects (by simp [State.setThread, ThreadPc.collects]) fun cl hcov => ?_
      simp only [State.setThread, State.emit, update_self] at hcov
      exact absurd hcov (not_covered_empty cl)

/-- The thread is in `thread_acquire`, where it leaves its table alone. -/
theorem Collected.help {hp : Help} (h : Collected cfg s t) (hpc : (s.threads t).pc = .help hp)
    (hs : HelpStep cfg s t hp s') (htrace : ∀ e ∈ s.trace, e ∈ s'.trace) : Collected cfg s' t := by
  have hafter : (s'.threads t).dirtyCls = (s.threads t).dirtyCls ∧
      ((s'.threads t).pc = .idle ∨ ∃ hp', (s'.threads t).pc = .help hp') := by
    cases hs <;>
      simp [State.setPc, State.setThread, State.setRing, State.setMtx, State.setClock, State.emit, hpc]
  refine .of_collects ?_ fun cl hcov => .inl ?_
  · rcases hafter.2 with h' | ⟨_, h'⟩ <;> rw [h'] <;> rfl
  · rw [hafter.1] at hcov
    exact htrace _ ((h.table (by rw [hpc]; rfl) cl hcov).resolve_right (by simp [hpc]))

/-- The thread is called. -/
theorem Collected.call (h : Collected cfg s t) (htable : TableOk (s.threads t)) (hnhc : NhcStore a)
    (hidle : (s.threads t).pc = .idle) (hcall : Call cfg s t a (s'.threads t))
    (htrace : ∀ e ∈ s.trace, e ∈ s'.trace) : Collected cfg s' t := by
  have hold : ∀ cl, Covered 0 (s.threads t).dirtyCls cl → .store t cl ∈ s'.trace := fun cl hcov =>
    htrace _ ((h.table (by rw [hidle]; rfl) cl hcov).resolve_right (by simp [hidle]))
  refine .of_collects ?_ fun cl hcov => ?_
  · generalize s'.threads t = th at hcall
    cases hcall <;> rfl
  · generalize s'.threads t = th at hcall hcov
    cases hcall with
    | insert hcl hins =>
        have hiff := (covered_insert_iff htable.maskOnly (line_ok hnhc hcl).2 hins).2 cl
        rcases hiff.mp hcov with hcov | rfl
        · exact .inl (hold cl hcov)
        · exact .inr rfl
    | full hcl hins =>
        obtain rfl := insertMask_full hins
        exact .inl (hold cl hcov)
    | _ => exact .inl (hold cl hcov)

theorem Collected.step (h : Collected cfg s t) (hok : RingsOk cfg s) (hprod : Producers cfg s)
    (htable : TableOk (s.threads t)) (hnodes : 1 < cfg.nodeCount) (hnhc : NhcStore a) (hs : Step cfg s a s') :
    Collected cfg s' t := by
  have htrace : ∀ e ∈ s.trace, e ∈ s'.trace := fun e he => by
    rw [trace_step hs]
    exact List.mem_append_left _ he
  by_cases ha : a = .thread t
  · subst ha
    cases hs with
    | thread hs => exact h.thread htable (hprod.own t) hs
    | help hpc hs => exact h.help hpc hs htrace
  · rcases call_of_ne hs ha with heq | ⟨hidle, hcall⟩
    · refine ⟨fun hcol cl hcov => ?_, fun k rest hpc entry hmem => ?_, fun k rest log hpc hhold => ?_⟩
      · rw [heq] at hcol hcov ⊢
        exact (h.table hcol cl hcov).imp_left (htrace _)
      · rw [heq] at hpc
        exact (h.filling k rest hpc entry hmem).mono fun cl => htrace _
      · rw [heq] at hpc
        rw [prod_step hs ha] at hhold
        obtain ⟨n, hn⟩ := exists_remote hnodes (cfg.home t)
        rw [buf_step hok hn hs ha hhold, trace_step hs]
        exact (h.held k rest log hpc hhold).mono fun cl hcl => hcl.append _
    · exact h.call htable hnhc hidle hcall htrace

/-! ## From the ring to the other nodes -/

/-- The words of every log of ring `i` are for lines that a thread of node `i` has stored to and written
back. -/
def PublishedPrecise (cfg : Config) (s : State) : Prop :=
  ∀ i, ∀ j < (s.rings i).tail, ∃ t, cfg.home t = i ∧
    LogOf (Flushed s.trace t) ((s.rings i).hist j).content

/-- Every line that node `n` has dropped was dropped for a thread of another node. -/
def DroppedPrecise (cfg : Config) (n : ℕ) (tr : List Event) : Prop :=
  ∀ cl earlier later, tr = earlier ++ .invalidate n cl :: later →
    ∃ t, cfg.home t ≠ n ∧ Flushed earlier t cl

/-- A new index has the log that its producer has filled. -/
theorem PublishedPrecise.step (h : PublishedPrecise cfg s) (hcol : ∀ t, Collected cfg s t)
    (hwrap : NoWrap cfg s a) (hs : Step cfg s a s') : PublishedPrecise cfg s' := by
  intro i j hj
  have hmono : ∀ {t : ℕ} {log : Log}, LogOf (Flushed s.trace t) log → LogOf (Flushed s'.trace t) log :=
    fun hlog => hlog.mono fun cl hcl => by
      rw [trace_step hs]
      exact hcl.append _
  rcases Nat.lt_or_ge j (s.rings i).tail with hlt | hge
  · obtain ⟨t, ht, hlog⟩ := h i j hlt
    rw [(hist_step hwrap hs hlt).2]
    exact ⟨t, ht, hmono hlog⟩
  · cases ringEffect hs with
    | none _ heq =>
        rw [heq] at hj
        omega
    | @step k b r ha hr hno heq =>
        rw [heq, update_apply] at hj ⊢
        split at hj
        · rename_i hk
          subst hk
          rw [if_pos rfl]
          cases LogManager.step_cases hr with
          | @produceTail t log rel hhold =>
              obtain ⟨rfl, rfl⟩ := eq_of_producer ha rfl
              have hincr : LogManager.incr (s.rings (cfg.home t)).tail = (s.rings (cfg.home t)).tail + 1 :=
                LogManager.incr_eq (hwrap _ _ ha)
              simp only [LogManager.State.setProd, hincr] at hj ⊢
              obtain rfl : j = (s.rings (cfg.home t)).tail := by omega
              rw [update_self]
              have hpc : ∃ k, (s.threads t).pc = .fill k [] := by
                simp only [ringAction] at ha
                split at ha
                · split at ha <;> cases ha
                · rename_i k hpc
                  exact ⟨k, hpc⟩
                · cases ha
                · cases ha
                · split at ha <;> simp at ha
                · cases ha
              obtain ⟨k, hpc⟩ := hpc
              exact ⟨t, rfl, hmono ((hcol t).held k [] log hpc hhold)⟩
          | _ => exact absurd hj (by simpa [LogManager.State.setProd, LogManager.State.setCons,
              LogManager.State.setSub, LogManager.State.take] using hge)
        · omega

/-- Only consumers of other rings drop lines. -/
theorem cons_of_mem (hl : Locks cfg s) {e : Event} (he : e ∈ emitted cfg s a)
    (hdrop : (∃ cl, e = .invalidate n cl) ∨ e = .wbinvd n) :
    ∃ i < cfg.nodeCount, LogManager.Remote cfg.toLogConfig i n ∧ e ∈ consEvents cfg n i (s.rings i) := by
  -- the events of a consumer name its own node
  have hnode : ∀ {m i : ℕ} {r : LogManager.State}, e ∈ consEvents cfg m i r → m = n := by
    intro m i r hmem
    rcases mem_consEvents hmem with ⟨_, h⟩ | ⟨_, h⟩ | h <;> rcases hdrop with ⟨_, rfl⟩ | rfl <;> cases h <;> rfl
  cases a with
  | thread u =>
      simp only [emitted] at he
      split at he
      · rcases hdrop with ⟨_, rfl⟩ | rfl <;> simp at he
      · rcases hdrop with ⟨_, rfl⟩ | rfl <;> simp [writebackEvents] at he
      · split at he <;> rcases hdrop with ⟨_, rfl⟩ | rfl <;> simp at he
      · rcases hdrop with ⟨_, rfl⟩ | rfl <;> simp at he
      · rename_i hp hpc
        split at he
        · rename_i hst
          obtain rfl := hnode he
          obtain ⟨hi, -⟩ := (hl.helpNode u hp hpc).2 (by simp [hst]) (by simp [hst])
          exact ⟨hp.i, hi, remote_of_help hl hpc (by simp [hst]) (by simp [hst]), he⟩
        · cases he
      · cases he
  | agent m =>
      simp only [emitted] at he
      split at he
      · rename_i i j clk hpc
        obtain rfl := hnode he
        obtain ⟨hi, hm, hne⟩ := hl.agentNode m i (by rw [hpc]; rfl)
        exact ⟨i, hi, ⟨hm, hne⟩, he⟩
      · cases he
  | _ => cases he

/-- What a consumer drops is for a line that a thread of the ring's node has written back. -/
theorem PublishedPrecise.drops (h : PublishedPrecise cfg s) (hok : RingsOk cfg s) {i : ℕ}
    (hn : LogManager.Remote cfg.toLogConfig i n) {e : Event} (he : e ∈ consEvents cfg n i (s.rings i))
    (hdrop : (∃ cl, e = .invalidate n cl) ∨ e = .wbinvd n) :
    ∃ t cl, cfg.home t = i ∧ e = .invalidate n cl ∧ Flushed s.trace t cl := by
  obtain ⟨hinv, hall⟩ := hok.inv i n hn
  have hst := hall.stable hn
  unfold consEvents at he
  split at he
  · rcases hdrop with ⟨_, rfl⟩ | rfl <;> simp at he
  · rename_i log clk k size hpc
    obtain ⟨hpub, hlog⟩ := hinv.cons_at hpc
    obtain ⟨rfl, -, hsize, -⟩ := hlog hst
    have htail := hinv.entries.published_lt _ hpub
    split at he
    · rename_i hk
      rw [hinv.entries.content _ (hinv.stable n hst).freed_le htail] at he
      obtain ⟨t, ht, hwords⟩ := h i _ htail
      obtain ⟨cl, rfl, hcl⟩ := (hwords k (hsize ▸ hk)).mem_entryEvents he
      exact ⟨t, cl, ht, rfl, hcl⟩
    · cases he
  · cases he

/-- The words on their way, and what nodes have done for those that have arrived. -/
structure Precise (cfg : Config) (s : State) : Prop where
  producers : Producers cfg s
  collected : ∀ t, Collected cfg s t
  published : PublishedPrecise cfg s
  dropped : ∀ n, DroppedPrecise cfg n s.trace
  noFlush : ∀ n, .wbinvd n ∉ s.trace

theorem Precise.initial : Precise cfg (initial cfg) where
  producers := .initial
  collected _ := .initial
  published i j hj := absurd hj (Nat.not_lt_zero j)
  dropped n cl earlier later h := by simp [Cluster.initial] at h
  noFlush n h := by cases h

theorem Precise.step (h : Precise cfg s) (hinv : Inv cfg s) (hlines : Lines cfg s) (hnodes : 1 < cfg.nodeCount)
    (hnhc : NhcStore a) (hwrap : NoWrap cfg s a) (hs : Step cfg s a s') : Precise cfg s' where
  producers := h.producers.step hinv.rings hnodes hs
  collected t := (h.collected t).step hinv.rings h.producers (hlines.table t) hnodes hnhc hs
  published := h.published.step h.collected hwrap hs
  dropped n cl earlier later htr := by
    rw [trace_step hs] at htr
    -- the line is dropped in this step, or was before
    have hnew : ∀ as, emitted cfg s a = as ++ .invalidate n cl :: later → earlier = s.trace ++ as →
        ∃ t, cfg.home t ≠ n ∧ Flushed earlier t cl := by
      rintro as hem rfl
      obtain ⟨i, -, hn, he⟩ := cons_of_mem hinv.locks (n := n) (by rw [hem]; simp) (.inl ⟨cl, rfl⟩)
      obtain ⟨t, cl', ht, heq, hcl⟩ := h.published.drops hinv.rings hn he (.inl ⟨cl, rfl⟩)
      cases heq
      exact ⟨t, by rw [ht]; exact Ne.symm hn.2, hcl.append as⟩
    rcases List.append_eq_append_iff.mp htr with ⟨as, has, hem⟩ | ⟨bs, hbs, hem⟩
    · exact hnew as hem has
    · cases bs with
      | nil => exact hnew [] hem.symm (by simpa using hbs.symm)
      | cons b bs =>
          obtain ⟨rfl, -⟩ := List.cons.inj hem
          exact h.dropped n cl earlier bs hbs
  noFlush n htr := by
    rw [trace_step hs] at htr
    rcases List.mem_append.mp htr with hold | hnew
    · exact h.noFlush n hold
    · obtain ⟨i, -, hn, he⟩ := cons_of_mem hinv.locks hnew (.inr rfl)
      obtain ⟨t, cl, -, heq, -⟩ := h.published.drops hinv.rings hn he (.inr rfl)
      cases heq

/-- With a single node nobody drops anything. -/
theorem noDrops_of_single (hnodes : cfg.nodeCount ≤ 1)
    (h : (machine cfg).Run (fun s a => NhcStore a ∧ FewLogs cfg s a ∧ GcBelowWrap cfg s a) s) :
    (∀ cl, .invalidate n cl ∉ s.trace) ∧ .wbinvd n ∉ s.trace := by
  have hinv : Locks cfg s ∧ ∀ e ∈ s.trace, ¬ ((∃ cl, e = .invalidate n cl) ∨ e = .wbinvd n) := by
    refine h.invariant (I := fun s => Locks cfg s ∧
      ∀ e ∈ s.trace, ¬ ((∃ cl, e = .invalidate n cl) ∨ e = .wbinvd n)) ?_ ?_
    · rintro s rfl
      exact ⟨.initial, fun e he => by cases he⟩
    · rintro s a s' - ⟨hl, hno⟩ - hstep
      have hs := step_cases hstep
      refine ⟨hl.step hs, fun e he hdrop => ?_⟩
      rw [trace_step hs] at he
      rcases List.mem_append.mp he with hold | hnew
      · exact hno e hold hdrop
      · -- the ring would be that of another node
        obtain ⟨i, hi, hn, -⟩ := cons_of_mem hl hnew hdrop
        have := hn.1
        exact hn.2 (by omega)
  exact ⟨fun cl he => hinv.2 _ he (.inl ⟨cl, rfl⟩), fun he => hinv.2 _ he (.inr rfl)⟩

/-- In every run of `rac_storeN` with fewer than `2 ^ 32 - LOG_COUNT` logs per node and no pass of
`perform_gc` in the last round, no node flushes its whole cache, and every line that it drops was stored to
and, after that, written back by a thread of another node. -/
theorem invalidations_precise (cfg : Config) (s : State)
    (h : (machine cfg).Run (fun s a => NhcStore a ∧ FewLogs cfg s a ∧ GcBelowWrap cfg s a) s) (n : ℕ) :
    .wbinvd n ∉ s.trace ∧ DroppedPrecise cfg n s.trace := by
  rcases Nat.lt_or_ge 1 cfg.nodeCount with hnodes | hnodes
  · have hprecise : Precise cfg s := by
      refine (run_noWrap hnodes h).invariant (I := Precise cfg) ?_ ?_
      · rintro s rfl
        exact .initial
      · rintro s a s' hr hp ⟨hnhc, hwrap⟩ hstep
        obtain ⟨hinv, hlines⟩ := lines_of_run hr
        exact hp.step hinv hlines hnodes hnhc hwrap (step_cases hstep)
    exact ⟨hprecise.noFlush n, hprecise.dropped n⟩
  · obtain ⟨hdrop, hflush⟩ := noDrops_of_single (n := n) hnodes h
    exact ⟨hflush, fun cl earlier later htr => absurd (by rw [htr]; simp) (hdrop cl)⟩

/-- Thread 0 stores and releases, and thread 65 of node 1 acquires; its node drops the line. -/
theorem invalidations_precise_one_store :
    ∃ s : State, .invalidate 1 (cxlNhcStart >>> 6) ∈ s.trace ∧ .wbinvd 1 ∉ s.trace ∧
      ∃ t earlier, Config.twoNodes.home t ≠ 1 ∧ Flushed earlier t (cxlNhcStart >>> 6) := by
  obtain ⟨s, hs, hdrop⟩ : ∃ s,
      (machine .twoNodes).exec shortNhcRun (initial .twoNodes)
        ([.logStore 0 cxlNhcStart, .thread 0, .release 0] ++ List.replicate 10 (.thread 0) ++
          [.objStore 0 0, .acquire 65 0] ++ List.replicate 24 (.thread 65)) = some s ∧
      .invalidate 1 (cxlNhcStart >>> 6) ∈ s.trace :=
    ⟨_, rfl, by decide +kernel⟩
  obtain ⟨hflush, hdropped⟩ := invalidations_precise .twoNodes s
    (Machine.Run.exec (.init rfl) (fun _ _ => guard_of_shortNhcRun) hs) 1
  obtain ⟨earlier, later, htr⟩ := List.append_of_mem hdrop
  obtain ⟨t, ht, hcl⟩ := hdropped _ earlier later htr
  exact ⟨s, hdrop, hflush, t, earlier, ht, hcl⟩

end Cluster

end RACoherence
