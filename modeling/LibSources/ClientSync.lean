import LibSources.ClientRead

/-!
# Synchronisation of the Text-Protocol Client

Whatever calls a client makes, it writes a query only when it has read all replies before it. The
invariant `Synced` says at which position of the last reply the client is in each of its states,
and that exactly the results that still read from the connection have a handle.

## Main results

* `Client.run_synchronised`: the client stays synchronised in every run.
-/

namespace LibSources

open Client Function List Option

variable {client : Client} {res : MysqlRes}

/-! ### Traces -/

section

variable (server : List (List UInt8) → List (List UInt8)) (sent : List (List UInt8))

def replies : List (List UInt8) := (range sent.length).flatMap fun k => server (sent.take (k + 1))

def Synchronised (trace : List WireEvent) : Prop :=
  ∀ before query behind, trace = before ++ .wrote query :: behind →
    packetsRead before = replies server (queries before)

theorem replies_concat (query : List UInt8) :
    replies server (sent ++ [query]) = replies server sent ++ server (sent ++ [query]) := by
  rw [replies, length_append, length_singleton, range_succ, flatMap_append,
    flatMap_singleton, take_of_length_le (by simp)]
  refine congrArg (· ++ _) (flatMap_congr fun k hk => ?_)
  rw [take_append_of_le_length (by have := mem_range.mp hk; omega)]

end

section

variable (trace trace' : List WireEvent)

theorem queries_append : queries (trace ++ trace') = queries trace ++ queries trace' := by
  induction trace with
  | nil => rfl
  | cons event trace ih =>
    cases event with
    | wrote query => rw [cons_append, queries, queries, ih, cons_append]
    | read packet => rw [cons_append, queries, queries, ih]

theorem packetsRead_append :
    packetsRead (trace ++ trace') = packetsRead trace ++ packetsRead trace' := by
  induction trace with
  | nil => rfl
  | cons event trace ih =>
    cases event with
    | wrote query => rw [cons_append, packetsRead, packetsRead, ih]
    | read packet => rw [cons_append, packetsRead, packetsRead, ih, cons_append]

end

theorem queries_map_read (packets : List (List UInt8)) : queries (packets.map .read) = [] := by
  induction packets with
  | nil => rfl
  | cons packet packets ih => exact ih

theorem packetsRead_map_read (packets : List (List UInt8)) :
    packetsRead (packets.map .read) = packets := by
  induction packets with
  | nil => rfl
  | cons packet packets ih => exact congrArg (packet :: ·) ih

variable {trace : List WireEvent} {mysql : Mysql} {id : ℕ} {results : ℕ → Option MysqlRes}

theorem Synchronised.read {server : List (List UInt8) → List (List UInt8)}
    (h : Synchronised server trace) (packets : List (List UInt8)) :
    Synchronised server (trace ++ packets.map .read) := by
  intro before query behind heq
  rcases append_eq_append_iff.mp heq with ⟨middle, -, hmiddle⟩ | ⟨middle, hmiddle, hrest⟩
  · -- the query would be among the packets read
    have hmem : WireEvent.wrote query ∈ packets.map WireEvent.read := by
      rw [hmiddle]
      exact mem_append_right _ mem_cons_self
    obtain ⟨packet, -, hpacket⟩ := mem_map.mp hmem
    exact absurd hpacket WireEvent.noConfusion
  cases middle with
  | nil =>
    have hmem : WireEvent.wrote query ∈ packets.map WireEvent.read := by
      rw [nil_append] at hrest
      rw [← hrest]
      exact mem_cons_self
    obtain ⟨packet, -, hpacket⟩ := mem_map.mp hmem
    exact absurd hpacket WireEvent.noConfusion
  | cons event middle =>
    rw [cons_append] at hrest
    obtain ⟨rfl, -⟩ := cons.inj hrest
    exact h before query middle hmiddle

theorem Synchronised.wrote {server : List (List UInt8) → List (List UInt8)}
    (h : Synchronised server trace) (hread : packetsRead trace = replies server (queries trace))
    (query : List UInt8) : Synchronised server (trace ++ [.wrote query]) := by
  intro before query' behind heq
  rcases eq_nil_or_concat behind with rfl | ⟨behind, event, rfl⟩
  · obtain ⟨rfl, -⟩ := append_inj' heq rfl
    exact hread
  · rw [concat_eq_append, ← cons_append, ← append_assoc] at heq
    exact h before query' behind (append_inj' heq rfl).1

/-- The part of the invariant about the connection: the packets read and to come are the
replies to the queries written. -/
structure Connected (server : List (List UInt8) → List (List UInt8)) (mysql : Mysql) : Prop where
  wellFormed : ∀ sent, WellFormed mysql.protocol41 mysql.clientTransactions .start (server sent)
  single : mysql.SingleBefore41
  replies_eq : packetsRead mysql.trace ++ mysql.incoming = replies server (queries mysql.trace)
  synchronised : Synchronised server mysql.trace

/-- The position in the last reply. While a result set is being read, its columns are with
the connection until `mysql_store_result` or `mysql_use_result`; then one unbuffered result
reads the rows. No other result does. -/
def Client.Phase (client : Client) : Prop :=
  match client.mysql.status with
  | .ready => client.mysql.Idle ∧ ∀ id res, client.results id = some res → res.eof = true
  | .getResult => client.mysql.fields.isSome ∧
      client.mysql.Follows (.rows client.mysql.fieldCount) ∧
      ∀ id res, client.results id = some res → res.eof = true
  | .useResult => ∃ id res, client.results id = some res ∧ res.eof = false ∧
      client.mysql.Follows (.rows res.fieldCount) ∧
      ∀ id' res', client.results id' = some res' → id' ≠ id → res'.eof = true

/-- The invariant of a client. A result at its end has no handle; another one is unbuffered
and has one. -/
structure Synced (server : List (List UInt8) → List (List UInt8)) (client : Client) : Prop where
  connected : Connected server client.mysql
  handle_eq : ∀ id res, client.results id = some res →
    res.handle = !res.eof ∧ (res.eof = false → res.data = none)
  phase : client.Phase

variable {server : List (List UInt8) → List (List UInt8)}

theorem Connected.of_wire {mysql' : Mysql} (C : Connected server mysql) (W : Wire mysql mysql')
    (hsingle : mysql'.SingleBefore41) : Connected server mysql' := by
  obtain ⟨packets, hin, htrace⟩ := W.read
  refine ⟨?_, hsingle, ?_, ?_⟩
  · rw [W.protocol41_eq, W.clientTransactions_eq]
    exact C.wellFormed
  · rw [htrace, packetsRead_append, packetsRead_map_read, queries_append, queries_map_read,
      append_nil, append_assoc, ← hin, C.replies_eq]
  · rw [htrace]
    exact C.synchronised.read packets

/-! ### Calls on the connection -/

theorem Synced.setMysqlError (S : Synced server client) (errcode : ℕ) (sqlstate : List UInt8) :
    Synced server { client with mysql := setMysqlError client.mysql errcode sqlstate } :=
  ⟨⟨S.connected.wellFormed, S.connected.single, S.connected.replies_eq,
    S.connected.synchronised⟩, S.handle_eq, S.phase⟩

theorem Synced.of_ready (C : Connected server client.mysql)
    (hhandle : ∀ id res, client.results id = some res →
      res.handle = !res.eof ∧ (res.eof = false → res.data = none))
    (hstatus : client.mysql.status = .ready) (hidle : client.mysql.Idle)
    (heof : ∀ id res, client.results id = some res → res.eof = true) : Synced server client := by
  refine ⟨C, hhandle, ?_⟩
  rw [Client.Phase, hstatus]
  exact ⟨hidle, heof⟩

theorem Synced.readQueryResult (hhandle : ∀ id res, client.results id = some res →
      res.handle = !res.eof ∧ (res.eof = false → res.data = none))
    (heof : ∀ id res, client.results id = some res → res.eof = true) (C : Connected server mysql)
    (hstatus : mysql.status = .ready) (hfollows : mysql.Follows .start) :
    ∃ failed mysql', cliReadQueryResult mysql = some (failed, mysql') ∧
      Synced server { client with mysql := mysql' } := by
  obtain ⟨failed, mysql', hread, W, hsingle, hend⟩ :=
    cliReadQueryResult_eq hfollows hstatus C.single
  refine ⟨failed, mysql', hread, C.of_wire W hsingle, hhandle, ?_⟩
  rcases hend with ⟨hready, hidle⟩ | ⟨hget, hfields, hrows⟩
  · rw [Client.Phase]
    rw [hready]
    exact ⟨hidle, heof⟩
  rw [Client.Phase]
  rw [hget]
  exact ⟨hfields, hrows, heof⟩

theorem Synced.mysqlRealQuery (S : Synced server client) (query : List UInt8) :
    ∃ failed mysql', mysqlRealQuery server client.mysql query = some (failed, mysql') ∧
      Synced server { client with mysql := mysql' } := by
  rw [LibSources.mysqlRealQuery, mysqlSendQuery]
  by_cases hout : client.mysql.status ≠ .ready ∨ client.mysql.MoreResults
  · rw [if_pos hout]
    exact ⟨true, _, rfl, S.setMysqlError _ _⟩
  rw [if_neg hout]
  obtain ⟨hready, hmore⟩ := not_or.mp hout
  have hstatus : client.mysql.status = .ready := not_not.mp hready
  have hphase := S.phase
  rw [Client.Phase, hstatus] at hphase
  obtain ⟨hidle, heof⟩ := hphase
  -- everything has been read
  have hread : packetsRead client.mysql.trace = replies server (queries client.mysql.trace) := by
    rw [← S.connected.replies_eq, hidle.2 hmore, append_nil]
  refine Synced.readQueryResult S.handle_eq heof ⟨S.connected.wellFormed, S.connected.single,
    ?_, S.connected.synchronised.wrote hread query⟩ hstatus (S.connected.wellFormed _)
  change packetsRead (client.mysql.trace ++ [.wrote query]) ++
    server (queries (client.mysql.trace ++ [.wrote query])) = _
  rw [packetsRead_append, queries_append]
  change (packetsRead client.mysql.trace ++ []) ++ server (queries client.mysql.trace ++ [query]) =
      replies server (queries (client.mysql.trace ++ [.wrote query]))
  rw [queries_append, append_nil, hread]
  exact (replies_concat server _ query).symm

theorem Synced.mysqlNextResult (S : Synced server client) :
    ∃ code mysql', mysqlNextResult client.mysql = some (code, mysql') ∧
      Synced server { client with mysql := mysql' } := by
  rw [LibSources.mysqlNextResult]
  by_cases hready : client.mysql.status ≠ .ready
  · rw [if_pos hready]
    exact ⟨1, _, rfl, S.setMysqlError _ _⟩
  rw [if_neg hready]
  have hstatus : client.mysql.status = .ready := not_not.mp hready
  have hphase := S.phase
  rw [Client.Phase, hstatus] at hphase
  obtain ⟨hidle, heof⟩ := hphase
  have C : Connected server { netClearError client.mysql with affectedRows := 2 ^ 64 - 1 } :=
    ⟨S.connected.wellFormed, S.connected.single, S.connected.replies_eq, S.connected.synchronised⟩
  by_cases hmore : client.mysql.MoreResults
  · obtain ⟨failed, mysql', hread, S'⟩ :=
      Synced.readQueryResult S.handle_eq heof C hstatus (hidle.1 hmore)
    exact ⟨_, mysql', (if_pos hmore).trans (congrArg (Option.map _) hread), S'⟩
  · exact ⟨_, _, if_neg hmore, Synced.of_ready C S.handle_eq hstatus hidle heof⟩

theorem update_some {property : MysqlRes → Prop}
    (hold : ∀ id' res', client.results id' = some res' → id' ≠ id → property res')
    (hnew : property res) (id' : ℕ) (res' : MysqlRes)
    (h : update client.results id (some res) id' = some res') : property res' := by
  by_cases heq : id' = id
  · subst heq
    rw [update_self] at h
    rw [← some.inj h]
    exact hnew
  · rw [update_of_ne heq] at h
    exact hold id' res' h heq

theorem of_update_none {id' : ℕ} (h : update results id none id' = some res) :
    id' ≠ id ∧ results id' = some res := by
  by_cases heq : id' = id
  · rw [heq, update_self] at h
    exact absurd h (some_ne_none res).symm
  · rw [update_of_ne heq] at h
    exact ⟨heq, h⟩

theorem of_cancelFetch {owner : Option ℕ} (h : cancelFetch results owner id = some res) :
    ∃ res', results id = some res' ∧ res.eof = res'.eof ∧ res.handle = res'.handle ∧
      res.data = res'.data := by
  cases owner with
  | none => exact ⟨res, h, rfl, rfl, rfl⟩
  | some own =>
    rw [cancelFetch] at h
    by_cases heq : id = own
    · subst heq
      rw [update_self] at h
      obtain ⟨res', hres', rfl⟩ := Option.map_eq_some_iff.mp h
      exact ⟨res', hres', rfl, rfl, rfl⟩
    · rw [update_of_ne heq] at h
      exact ⟨res, h, rfl, rfl, rfl⟩

section

variable (S : Synced server client)
include S

theorem Synced.mysqlStoreResult :
    ∃ res mysql', mysqlStoreResult client.mysql = some (res, mysql') ∧
      Synced server (client.allocate res mysql').2 := by
  rw [LibSources.mysqlStoreResult]
  cases hfields : client.mysql.fields with
  | none => exact ⟨none, client.mysql, rfl, S⟩
  | some fields =>
    dsimp only
    by_cases hget : client.mysql.status ≠ .getResult
    · rw [if_pos hget]
      exact ⟨none, _, rfl, S.setMysqlError _ _⟩
    rw [if_neg hget]
    have hphase := S.phase
    rw [Client.Phase, not_not.mp hget] at hphase
    obtain ⟨-, hrows, heof⟩ := hphase
    have C : Connected server { client.mysql with status := .ready } :=
      ⟨S.connected.wellFormed, S.connected.single, S.connected.replies_eq, S.connected.synchronised⟩
    obtain ⟨result, mysql', hread, R, hsingle, hend⟩ := cliReadRows_eq
      (show Mysql.Follows { client.mysql with status := .ready } _ from hrows)
      ReplyPosition.noConfusion C.single
    have C' := C.of_wire R.toWire hsingle
    have hidle : mysql'.Idle := hend.elim And.right And.right
    change cliReadRows { client.mysql with status := .ready } client.mysql.fieldCount = _ at hread
    rw [← hfields, hread, bind_eq_bind, bind_some]
    cases result with
    | none => exact ⟨none, mysql', rfl, Synced.of_ready C' S.handle_eq R.status_eq hidle heof⟩
    | some rows =>
      refine ⟨some _, _, rfl, Synced.of_ready ?_ ?_ R.status_eq hidle ?_⟩
      · exact ⟨C'.wellFormed, C'.single, C'.replies_eq, C'.synchronised⟩
      · exact update_some (fun id res h _ => S.handle_eq id res h)
          ⟨rfl, fun h => Bool.noConfusion h⟩
      · exact update_some (fun id res h _ => heof id res h) rfl

theorem Synced.mysqlUseResult :
    Synced server (client.allocate (mysqlUseResult client.mysql client.next).1
      (mysqlUseResult client.mysql client.next).2).2 := by
  rw [LibSources.mysqlUseResult]
  cases hfields : client.mysql.fields with
  | none => exact S
  | some fields =>
    dsimp only
    by_cases hget : client.mysql.status ≠ .getResult
    · rw [if_pos hget]
      exact S.setMysqlError _ _
    rw [if_neg hget]
    have hphase := S.phase
    rw [Client.Phase, not_not.mp hget] at hphase
    obtain ⟨-, hrows, heof⟩ := hphase
    refine ⟨⟨S.connected.wellFormed, S.connected.single, S.connected.replies_eq,
      S.connected.synchronised⟩, ?_, ?_⟩
    · exact update_some (fun id res h _ => S.handle_eq id res h) ⟨rfl, fun _ => rfl⟩
    refine ⟨client.next, _, update_self _ _ _, rfl, hrows, ?_⟩
    intro id res h hne
    exact heof id res ((update_of_ne hne _ _).symm.trans h)

/-! ### Calls on results -/

theorem Synced.endFetch (res : MysqlRes)
    (hothers : ∀ id' res', client.results id' = some res' → id' ≠ id → res'.eof = true)
    (C : Connected server mysql) (hidle : mysql.Idle) :
    Synced server (endFetch client id res mysql) := by
  refine Synced.of_ready ⟨C.wellFormed, C.single, C.replies_eq, C.synchronised⟩ ?_ rfl hidle ?_
  · exact update_some (fun id' res' h _ => S.handle_eq id' res' h)
      ⟨rfl, fun h => Bool.noConfusion h⟩
  · exact update_some hothers rfl

theorem Synced.update {res res' : MysqlRes}
    (hres : client.results id = some res) (hhandle : res'.handle = res.handle)
    (heof : res'.eof = res.eof) (hdata : res'.data = res.data)
    (hcount : res'.fieldCount = res.fieldCount) :
    Synced server { client with results := Function.update client.results id (some res') } := by
  have hothers : ∀ property : MysqlRes → Prop, (∀ id res, client.results id = some res →
      property res) → property res' → ∀ id1 res1,
      Function.update client.results id (some res') id1 = some res1 → property res1 :=
    fun property h hnew => update_some (fun id res hr _ => h id res hr) hnew
  refine ⟨S.connected, hothers _ S.handle_eq ?_, ?_⟩
  · have := S.handle_eq id res hres
    rwa [← hhandle, ← heof, ← hdata] at this
  have hphase := S.phase
  rw [Client.Phase] at hphase ⊢
  dsimp only
  cases hstatus : client.mysql.status with
  | ready =>
    rw [hstatus] at hphase
    exact ⟨hphase.1, hothers _ hphase.2 (heof.trans (hphase.2 id res hres))⟩
  | getResult =>
    rw [hstatus] at hphase
    exact ⟨hphase.1, hphase.2.1, hothers _ hphase.2.2 (heof.trans (hphase.2.2 id res hres))⟩
  | useResult =>
    rw [hstatus] at hphase
    obtain ⟨id0, res0, hres0, hopen, hrows, hother⟩ := hphase
    by_cases heq : id = id0
    · subst heq
      obtain rfl : res = res0 := some.inj (hres.symm.trans hres0)
      refine ⟨id, res', update_self _ _ _, heof.trans hopen, hcount ▸ hrows, ?_⟩
      intro id1 res1 h hne
      rw [update_of_ne hne] at h
      exact hother id1 res1 h hne
    refine ⟨id0, res0, (update_of_ne (Ne.symm heq) _ _).trans hres0, hopen, hrows,
      fun id1 res1 h hne => ?_⟩
    by_cases heq1 : id1 = id
    · subst heq1
      rw [update_self] at h
      rw [← some.inj h, heof]
      exact hother id1 res hres hne
    · rw [update_of_ne heq1] at h
      exact hother id1 res1 h hne

theorem Synced.fetching (hres : client.results id = some res) (hopen : res.eof = false) :
    client.mysql.status = .useResult ∧ client.mysql.Follows (.rows res.fieldCount) ∧
      ∀ id' res', client.results id' = some res' → id' ≠ id → res'.eof = true := by
  have hphase := S.phase
  rw [Client.Phase] at hphase
  cases hstatus : client.mysql.status with
  | ready =>
    rw [hstatus] at hphase
    exact absurd ((hphase.2 id res hres).symm.trans hopen) (by decide)
  | getResult =>
    rw [hstatus] at hphase
    exact absurd ((hphase.2.2 id res hres).symm.trans hopen) (by decide)
  | useResult =>
    rw [hstatus] at hphase
    obtain ⟨id0, res0, hres0, -, hrows, hother⟩ := hphase
    by_cases heq : id = id0
    · subst heq
      obtain rfl : res = res0 := some.inj (hres.symm.trans hres0)
      exact ⟨rfl, hrows, hother⟩
    · exact absurd ((hother id res hres heq).symm.trans hopen) (by decide)

theorem Synced.mysqlFetchRow (id : ℕ) :
    ∃ row client', mysqlFetchRow client id = some (row, client') ∧ Synced server client' := by
  rw [LibSources.mysqlFetchRow]
  cases hres : client.results id with
  | none => exact ⟨none, client, rfl, S⟩
  | some res =>
    dsimp only
    cases hdata : res.data with
    | some rows =>
      dsimp only
      split
      · exact ⟨_, _, rfl, S.update hres rfl rfl hdata.symm rfl⟩
      · exact ⟨_, _, rfl, S.update hres rfl rfl hdata.symm rfl⟩
    | none =>
      cases hopen : res.eof with
      | true =>
        rw [if_pos rfl]
        exact ⟨none, client, rfl, S⟩
      | false =>
        have hhandle : res.handle = true := by rw [(S.handle_eq id res hres).1, hopen]; rfl
        obtain ⟨hstatus, hrows, hothers⟩ := S.fetching hres hopen
        obtain ⟨row, mysql', hread, R, hsingle, hend⟩ := readOneRow_eq hrows S.connected.single
        have C := S.connected.of_wire R.toWire hsingle
        rw [if_neg Bool.false_ne_true, if_neg (not_not.mpr hhandle),
          if_neg (not_not.mpr hstatus), hread, bind_eq_bind, bind_some]
        rcases hend with ⟨⟨values, rfl⟩, hrows'⟩ | ⟨⟨code, rfl⟩, hidle⟩
        · have S' : Synced server { client with mysql := mysql' } := by
            refine ⟨C, S.handle_eq, ?_⟩
            rw [Client.Phase]
            rw [R.status_eq, hstatus]
            exact ⟨id, res, hres, hopen, hrows', hothers⟩
          exact ⟨_, _, rfl, S'.update hres rfl hopen.symm hdata.symm rfl⟩
        · exact ⟨_, _, rfl, S.endFetch res hothers C hidle⟩

theorem Synced.free (hres : client.results id = some res) (heof : res.eof = true) :
    Synced server { client with results := Function.update client.results id none } := by
  refine ⟨S.connected, fun id' res' h => S.handle_eq id' res' (of_update_none h).2, ?_⟩
  have hphase := S.phase
  rw [Client.Phase] at hphase ⊢
  cases hstatus : client.mysql.status with
  | ready =>
    rw [hstatus] at hphase
    exact ⟨hphase.1, fun id' res' h => hphase.2 id' res' (of_update_none h).2⟩
  | getResult =>
    rw [hstatus] at hphase
    exact ⟨hphase.1, hphase.2.1, fun id' res' h => hphase.2.2 id' res' (of_update_none h).2⟩
  | useResult =>
    rw [hstatus] at hphase
    obtain ⟨id0, res0, hres0, hopen, hrows, hother⟩ := hphase
    have hne : id0 ≠ id := by
      rintro rfl
      obtain rfl : res = res0 := some.inj (hres.symm.trans hres0)
      exact absurd (heof.symm.trans hopen) (by decide)
    exact ⟨id0, res0, (update_of_ne hne _ _).trans hres0, hopen, hrows,
      fun id' res' h => hother id' res' (of_update_none h).2⟩

theorem Synced.mysqlFreeResult (id : ℕ) :
    ∃ client', mysqlFreeResult client id = some client' ∧ Synced server client' := by
  rw [LibSources.mysqlFreeResult]
  cases hres : client.results id with
  | none => exact ⟨client, rfl, S⟩
  | some res =>
    obtain ⟨hhandle, -⟩ := S.handle_eq id res hres
    dsimp only
    cases hopen : res.eof with
    | true =>
      rw [hopen] at hhandle
      rw [hhandle, if_neg (by decide)]
      exact ⟨_, rfl, S.free hres hopen⟩
    | false =>
      rw [hopen] at hhandle
      obtain ⟨hstatus, hrows, hothers⟩ := S.fetching hres hopen
      rw [hhandle, if_pos (by decide), if_pos hstatus]
      set owner := if client.mysql.unbufferedFetchOwner = some id then none
        else client.mysql.unbufferedFetchOwner
      obtain ⟨mysql', hflush, R, hsingle, hidle⟩ := cliFlushUseResult_eq
        (show Mysql.Follows { client.mysql with unbufferedFetchOwner := owner } _ from hrows)
        S.connected.single
      have C : Connected server mysql' := S.connected.of_wire
        ⟨R.read, R.protocol41_eq, R.clientTransactions_eq⟩ hsingle
      rw [hflush, bind_eq_bind, bind_some]
      refine ⟨_, rfl, Synced.of_ready ⟨C.wellFormed, C.single, C.replies_eq, C.synchronised⟩
        ?_ rfl hidle ?_⟩
      · intro id' res' h
        obtain ⟨res'', hres'', heof'', hhandle'', hdata''⟩ := of_cancelFetch h
        rw [heof'', hhandle'', hdata'']
        exact S.handle_eq id' res'' (of_update_none hres'').2
      intro id' res' h
      obtain ⟨res'', hres'', heof'', -⟩ := of_cancelFetch h
      obtain ⟨hne, hres''⟩ := of_update_none hres''
      exact heof''.trans (hothers id' res'' hres'' hne)

/-! ### Runs -/

theorem Synced.step (call : ClientCall) :
    ∃ result client', client.step server call = some (result, client') ∧ Synced server client' := by
  cases call with
  | realQuery query =>
    obtain ⟨failed, mysql', h, S'⟩ := S.mysqlRealQuery query
    exact ⟨_, _, by rw [Client.step, h]; rfl, S'⟩
  | storeResult =>
    obtain ⟨res, mysql', h, S'⟩ := S.mysqlStoreResult
    exact ⟨_, _, by rw [Client.step, h]; rfl, S'⟩
  | useResult => exact ⟨_, _, rfl, S.mysqlUseResult⟩
  | fetchRow id =>
    obtain ⟨row, client', h, S'⟩ := S.mysqlFetchRow id
    exact ⟨_, _, by rw [Client.step, h]; rfl, S'⟩
  | freeResult id =>
    obtain ⟨client', h, S'⟩ := S.mysqlFreeResult id
    exact ⟨_, _, by rw [Client.step, h]; rfl, S'⟩
  | nextResult =>
    obtain ⟨code, mysql', h, S'⟩ := S.mysqlNextResult
    exact ⟨_, _, by rw [Client.step, h]; rfl, S'⟩

theorem Synced.run (calls : List ClientCall) :
    ∃ client', client.run server calls = some client' ∧ Synced server client' := by
  induction calls generalizing client with
  | nil => exact ⟨client, rfl, S⟩
  | cons call calls ih =>
    obtain ⟨result, client1, hstep, S1⟩ := S.step call
    obtain ⟨client', hrun, S'⟩ := ih S1
    refine ⟨client', ?_, S'⟩
    rw [run, hstep, bind_eq_bind, bind_some]
    exact hrun

end

theorem synced_init {protocol41 clientTransactions : Bool}
    (hserver : ∀ sent, WellFormed protocol41 clientTransactions .start (server sent)) :
    Synced server (init protocol41 clientTransactions) := by
  have hmore : ¬ (init protocol41 clientTransactions).mysql.MoreResults :=
    not_not.mpr (by decide : serverStatusAutocommit &&& serverMoreResultsExists = 0)
  refine Synced.of_ready ⟨hserver, fun _ => hmore, rfl, ?_⟩ ?_ rfl
    ⟨fun h => absurd h hmore, fun _ => rfl⟩ ?_
  · intro before query behind h
    exact absurd h.symm (append_ne_nil_of_right_ne_nil _ (cons_ne_nil _ _))
  · exact fun id res h => absurd h.symm (some_ne_none res)
  · exact fun id res h => absurd h.symm (some_ne_none res)

/-- A call that does not fit the state of the connection. -/
def Client.OutOfOrder (client : Client) : ClientCall → Prop
  | .realQuery _ => client.mysql.status ≠ .ready ∨ client.mysql.MoreResults
  | .nextResult => client.mysql.status ≠ .ready
  | .storeResult => client.mysql.status ≠ .getResult
  | .useResult => client.mysql.status ≠ .getResult
  | .fetchRow id => (∃ res, client.results id = some res ∧ res.eof = false) ∧
      client.mysql.status ≠ .useResult
  | .freeResult _ => False

/-- What a call out of order returns: an error, or no result. Without the columns of a result
set there is no result to ask for, and `mysql_store_result` and `mysql_use_result` do not set
the error. -/
def Client.Refuses (client client' : Client) (result : ClientReturn) : ClientCall → Prop
  | .realQuery _ => result = .code 1 ∧ client'.mysql.lastErrno = crCommandsOutOfSync
  | .nextResult => result = .code 1 ∧ client'.mysql.lastErrno = crCommandsOutOfSync
  | .storeResult => result = .result none ∧
      (client.mysql.fields ≠ none → client'.mysql.lastErrno = crCommandsOutOfSync) ∧
      (client.mysql.fields = none → client'.mysql = client.mysql)
  | .useResult => result = .result none ∧
      (client.mysql.fields ≠ none → client'.mysql.lastErrno = crCommandsOutOfSync) ∧
      (client.mysql.fields = none → client'.mysql = client.mysql)
  | .fetchRow _ => result = .row none ∧ client'.mysql.lastErrno = crCommandsOutOfSync
  | .freeResult _ => False

theorem Synced.refuses (S : Synced server client) {call : ClientCall}
    (hout : client.OutOfOrder call) :
    ∃ result client', client.step server call = some (result, client') ∧
      client'.mysql.trace = client.mysql.trace ∧ client.Refuses client' result call := by
  cases call with
  | realQuery query =>
    refine ⟨_, { client with
      mysql := LibSources.setMysqlError client.mysql crCommandsOutOfSync unknownSqlstate }, ?_, rfl,
      rfl, rfl⟩
    rw [Client.OutOfOrder] at hout
    rw [Client.step, LibSources.mysqlRealQuery, mysqlSendQuery, if_pos hout]
    rfl
  | nextResult =>
    refine ⟨_, { client with
      mysql := LibSources.setMysqlError client.mysql crCommandsOutOfSync unknownSqlstate }, ?_, rfl,
      rfl, rfl⟩
    rw [Client.OutOfOrder] at hout
    rw [Client.step, LibSources.mysqlNextResult, if_pos hout]
    rfl
  | storeResult | useResult =>
    rw [Client.OutOfOrder] at hout
    simp only [Client.step, LibSources.mysqlStoreResult, LibSources.mysqlUseResult]
    cases hfields : client.mysql.fields with
    | none => exact ⟨_, client, rfl, rfl, rfl, fun h => absurd hfields h, fun _ => rfl⟩
    | some fields =>
      dsimp only
      rw [if_pos hout]
      exact ⟨_, { client with
        mysql := LibSources.setMysqlError client.mysql crCommandsOutOfSync unknownSqlstate }, rfl,
        rfl, rfl, fun _ => rfl, fun h => absurd (hfields.symm.trans h) (some_ne_none _)⟩
  | fetchRow id =>
    obtain ⟨⟨res, hres, hopen⟩, hstatus⟩ := hout
    exact absurd (S.fetching hres hopen).1 hstatus
  | freeResult id => exact hout.elim

/-- Whatever calls a client makes against a server with well-formed replies, every call ends,
and a query is only written when all packets of all replies before it have been read. A call
out of order is refused without writing or reading anything. -/
theorem Client.run_synchronised (server : List (List UInt8) → List (List UInt8))
    (protocol41 clientTransactions : Bool)
    (hserver : ∀ sent, WellFormed protocol41 clientTransactions .start (server sent))
    (calls : List ClientCall) :
    ∃ client, (init protocol41 clientTransactions).run server calls = some client ∧
      Synchronised server client.mysql.trace ∧
      ∀ call, client.OutOfOrder call →
        ∃ result client', client.step server call = some (result, client') ∧
          client'.mysql.trace = client.mysql.trace ∧ client.Refuses client' result call := by
  obtain ⟨client, hrun, S⟩ := (synced_init hserver).run calls
  exact ⟨client, hrun, S.connected.synchronised, fun call hout => S.refuses hout⟩

def oneRowServer (_ : List (List UInt8)) : List (List UInt8) :=
  [[1], [0, 0, 0, 0, 0, 0, 12, 0, 0, 0, 0, 0, 0, 0, 0, 0, 0, 0, 0], [254, 0, 0, 2, 0], [1, 65],
    [254, 0, 0, 2, 0]]

theorem wellFormed_oneRowServer (sent : List (List UInt8)) :
    WellFormed true true .start (oneRowServer sent) := by
  have heof : IsEof true false [254, 0, 0, 2, 0] := ⟨0, 2, rfl, by decide⟩
  have hcolumns : WellFormed true true (.columns 1 1) (oneRowServer sent).tail :=
    .column ⟨by decide, by decide,
    [some [], some [], some [], some [], some [], some [], some (replicate 12 0)], rfl, rfl⟩
    (.columnsEof heof (.row ⟨by decide, by decide, [some [65]], rfl, rfl⟩ (.eof heof)))
  exact WellFormed.header one_ne_zero (by decide) hcolumns

/-- `Client.run_synchronised` for a client that leaves a result in the middle. -/
theorem Client.run_synchronised_oneRowServer :
    ∃ client, (init true true).run oneRowServer
        [.realQuery [83], .useResult, .realQuery [83], .fetchRow 0, .freeResult 0,
          .realQuery [83]] = some client ∧
      Synchronised oneRowServer client.mysql.trace ∧
      ∀ call, client.OutOfOrder call →
        ∃ result client', client.step oneRowServer call = some (result, client') ∧
          client'.mysql.trace = client.mysql.trace ∧ client.Refuses client' result call :=
  run_synchronised oneRowServer true true wellFormed_oneRowServer _

/-- While an unbuffered result is being fetched, `mysql_store_result` returns null but does not
set the error. -/
theorem Client.storeResult_without_error :
    (∀ sent, WellFormed true true .start (oneRowServer sent)) ∧
    ∃ client client', (init true true).run oneRowServer [.realQuery [83], .useResult] =
        some client ∧
      client.OutOfOrder .storeResult ∧
      client.step oneRowServer .storeResult = some (.result none, client') ∧
      client'.mysql.lastErrno = 0 := by
  refine ⟨wellFormed_oneRowServer, _, _, rfl, ?_, rfl, rfl⟩
  exact MysqlStatus.noConfusion

end LibSources
