import LibSources.Net

/-!
# The Text-Protocol Client of `libmysql/client.c`

A model of the functions by which a client sends a query and reads the reply:
`mysqlRealQuery`, `mysqlStoreResult`, `mysqlUseResult`, `mysqlFetchRow`, `mysqlFreeResult`,
`mysqlNextResult` and what they call.

* A packet is the list of bytes that `my_net_read` delivers at `read_pos`. The packets that the
  server has sent and the client has not read are `incoming`; `trace` records every query written
  and every packet read.
* The server is a function from the queries it was sent so far to the packets of its reply to
  the last one.
* A `MYSQL_RES` is an entry of a table; its address is its index. A call on an address without a
  result is not a call.
* An allocation never fails. The result `none` is a run that leaves the model: the client waits
  for a packet that does not come, has lost the connection, is asked for a file
  (`LOAD DATA LOCAL`) or follows a null pointer.
-/

namespace LibSources

open Function

/-! ### Integers in packets -/

/-- The byte at an offset of a packet. Behind the packet stands the end 0. -/
def byteAt (packet : List UInt8) (i : ℕ) : UInt8 := packet.getD i 0

section

variable (mem : ℕ → UInt8) (i : ℕ)

def uint2korr : ℕ := (mem i).toNat + (mem (i + 1)).toNat * 256

def uint4korr : ℕ := uint2korr mem i + uint2korr mem (i + 2) * 65536

def uint8korr : ℕ := uint4korr mem i + uint4korr mem (i + 4) * 4294967296

def int2store (n : ℕ) : List UInt8 := [n.toUInt8, (n / 256).toUInt8]

def int8store (n : ℕ) : List UInt8 :=
  int2store n ++ int2store (n / 65536) ++ int2store (n / 4294967296) ++
    int2store (n / 281474976710656)

/-- The body of `net_field_length` and `net_field_length_ll`, which differ in how they read
an integer of eight bytes: the length, or `none` for `NULL_LENGTH`, and the offset behind it. -/
def fieldLength (korr8 : (ℕ → UInt8) → ℕ → ℕ) (mem : ℕ → UInt8) (pos : ℕ) : Option ℕ × ℕ :=
  if mem pos < 251 then (some (mem pos).toNat, pos + 1)
  else if mem pos = 251 then (none, pos + 1)
  else if mem pos = 252 then (some (uint2korr mem (pos + 1)), pos + 3)
  else if mem pos = 253 then (some (uint3korr mem (pos + 1)), pos + 4)
  else (some (korr8 mem (pos + 1)), pos + 9)

def netFieldLength : (ℕ → UInt8) → ℕ → Option ℕ × ℕ := fieldLength uint4korr

def netFieldLengthLl (pos : ℕ) : ℕ × ℕ :=
  ((fieldLength uint8korr mem pos).1.getD (2 ^ 64 - 1), (fieldLength uint8korr mem pos).2)

end

def netStoreLength (length : ℕ) : List UInt8 :=
  if length < 251 then [length.toUInt8]
  else if length < 65536 then 252 :: int2store length
  else if length < 16777216 then 253 :: int3store length
  else 254 :: int8store length

/-! ### The state -/

def serverStatusInTrans : UInt16 := 1

def serverStatusAutocommit : UInt16 := 2

def serverMoreResultsExists : UInt16 := 8

def crUnknownError : ℕ := 2000

def crCommandsOutOfSync : ℕ := 2014

def crMalformedPacket : ℕ := 2027

def crFetchCanceled : ℕ := 2050

def unknownSqlstate : List UInt8 := [72, 89, 48, 48, 48]

def notErrorSqlstate : List UInt8 := [48, 48, 48, 48, 48]

inductive WireEvent where
  /-- A query is written. -/
  | wrote (query : List UInt8)
  /-- A packet is read. -/
  | read (packet : List UInt8)
  deriving DecidableEq

def queries : List WireEvent → List (List UInt8)
  | [] => []
  | .wrote query :: trace => query :: queries trace
  | .read _ :: trace => queries trace

def packetsRead : List WireEvent → List (List UInt8)
  | [] => []
  | .wrote _ :: trace => packetsRead trace
  | .read packet :: trace => packet :: packetsRead trace

inductive MysqlStatus where
  | ready
  | getResult
  | useResult
  deriving DecidableEq

/-- The columns of a row, `none` for `NULL`. -/
abbrev Row := List (Option (List UInt8))

/-- `MYSQL`, with the part of `NET` that is used here. -/
structure Mysql where
  incoming : List (List UInt8)
  trace : List WireEvent
  /-- `CLIENT_PROTOCOL_41` in `server_capabilities`. -/
  protocol41 : Bool
  /-- `CLIENT_TRANSACTIONS` in `server_capabilities`. -/
  clientTransactions : Bool
  status : MysqlStatus
  serverStatus : UInt16
  warningCount : ℕ
  affectedRows : ℕ
  insertId : ℕ
  info : Option (List UInt8)
  fields : Option (List Row)
  fieldCount : ℕ
  unbufferedFetchOwner : Option ℕ
  lastErrno : ℕ
  sqlstate : List UInt8

structure MysqlRes where
  rowCount : ℕ
  fields : List Row
  data : Option (List Row)
  dataCursor : List Row
  handle : Bool
  currentRow : Option Row
  fieldCount : ℕ
  eof : Bool
  unbufferedFetchCancelled : Bool

def Mysql.MoreResults (mysql : Mysql) : Prop := mysql.serverStatus &&& serverMoreResultsExists ≠ 0

instance (mysql : Mysql) : Decidable mysql.MoreResults :=
  inferInstanceAs (Decidable (mysql.serverStatus &&& serverMoreResultsExists ≠ 0))

section

variable (mysql : Mysql)

def setMysqlError (errcode : ℕ) (sqlstate : List UInt8) : Mysql :=
  { mysql with lastErrno := errcode, sqlstate := sqlstate }

def netClearError : Mysql := { mysql with lastErrno := 0, sqlstate := notErrorSqlstate }

/-! ### Reading packets -/

def strmake (bytes : List UInt8) (n : ℕ) : List UInt8 := (bytes.take n).takeWhile (· ≠ 0)

def readError (packet : List UInt8) : Mysql :=
  if 3 < packet.length then
    { mysql with
      lastErrno := uint2korr (byteAt packet) 1
      sqlstate := if mysql.protocol41 ∧ byteAt packet 3 = 35 then strmake (packet.drop 4) 5
        else unknownSqlstate }
  else setMysqlError mysql crUnknownError unknownSqlstate

def cliSafeRead : Option (Option (List UInt8) × Mysql) :=
  match mysql.incoming with
  | [] => none
  | packet :: rest =>
    let mysql := { mysql with incoming := rest, trace := mysql.trace ++ [.read packet] }
    if packet.length = 0 then none
    else if byteAt packet 0 = 255 then
      let mysql := readError mysql packet
      some (none, { mysql with
        serverStatus := mysql.serverStatus &&& ~~~serverMoreResultsExists })
    else some (some packet, mysql)

/-- The loop over the columns of a row of `cli_read_rows` and `read_one_row`. `dst` is what
the columns take up in the row buffer, and `room` the number that the length of a column is
compared with, as an unsigned long. -/
def unpackRow (room : ℕ → ℕ → ℤ) (mem : ℕ → UInt8) : ℕ → ℕ → ℕ → Option Row
  | 0, _, _ => some []
  | fields + 1, pos, dst =>
    match netFieldLength mem pos with
    | (none, pos) => (unpackRow room mem fields pos dst).map (none :: ·)
    | (some len, pos) =>
      if room pos dst % 2 ^ 64 < len then none
      else (unpackRow room mem fields (pos + len) (dst + len + 1)).map
        (some (window mem pos len) :: ·)

def readEof (packet : List UInt8) : Mysql :=
  { mysql with
    warningCount := uint2korr (byteAt packet) 1
    serverStatus := (uint2korr (byteAt packet) 3).toUInt16 }

end

/-- The loop of `cli_read_rows`, where `packet` has just been read. Every round reads a
packet, so `fuel` bounds the number of rounds. -/
def readRowsLoop (fields : ℕ) :
    ℕ → List UInt8 → List Row → Mysql → Option (Option (List Row) × Mysql)
  | 0, _, _, _ => none
  | fuel + 1, packet, rows, mysql =>
    if byteAt packet 0 ≠ 254 ∨ 8 ≤ packet.length then
      match unpackRow (fun _ dst => (packet.length : ℤ) - 1 - dst) (byteAt packet) fields 0 0 with
      | none => some (none, setMysqlError mysql crMalformedPacket unknownSqlstate)
      | some row => do
          let (next, mysql) ← cliSafeRead mysql
          match next with
          | none => some (none, mysql)
          | some packet => readRowsLoop fields fuel packet (rows ++ [row]) mysql
    else some (some rows, if 1 < packet.length then readEof mysql packet else mysql)

def cliReadRows (mysql : Mysql) (fields : ℕ) : Option (Option (List Row) × Mysql) := do
  let (first, mysql) ← cliSafeRead mysql
  match first with
  | none => some (none, mysql)
  | some packet => readRowsLoop fields (mysql.incoming.length + 1) packet [] mysql

/-- `read_one_row`: the row, or the return value `1` at the end of the data and `-1` after an
error. -/
def readOneRow (mysql : Mysql) (fields : ℕ) : Option (Except ℤ Row × Mysql) := do
  let (next, mysql) ← cliSafeRead mysql
  match next with
  | none => some (.error (-1), mysql)
  | some packet =>
    if packet.length ≤ 8 ∧ byteAt packet 0 = 254 then
      some (.error 1, if 1 < packet.length then readEof mysql packet else mysql)
    else
      match unpackRow (fun pos _ => (packet.length : ℤ) - pos) (byteAt packet) fields 0 0 with
      | none => some (.error (-1), setMysqlError mysql crUnknownError unknownSqlstate)
      | some row => some (.ok row, mysql)

def flushOneResultLoop : ℕ → Mysql → Option (Bool × Mysql)
  | 0, _ => none
  | fuel + 1, mysql => do
      let (next, mysql) ← cliSafeRead mysql
      match next with
      | none => some (true, mysql)
      | some packet =>
        if 8 < packet.length ∨ byteAt packet 0 ≠ 254 then flushOneResultLoop fuel mysql
        else some (false, if mysql.protocol41 then readEof mysql packet else mysql)

section

variable (mysql : Mysql)

def flushOneResult : Option (Bool × Mysql) := flushOneResultLoop (mysql.incoming.length + 1) mysql

def cliFlushUseResult : Option Mysql := (flushOneResult mysql).map (·.2)

/-! ### Queries and their results -/

def freeOldQuery : Mysql :=
  { mysql with fields := none, fieldCount := 0, warningCount := 0, info := none }

variable (server : List (List UInt8) → List (List UInt8))

/-- `mysql_send_query`, that is `cli_advanced_command` for `COM_QUERY` with `skip_check` set:
whether it failed. The data that is ready to be read is thrown away by `net_clear`. -/
def mysqlSendQuery (mysql : Mysql) (query : List UInt8) : Bool × Mysql :=
  if mysql.status ≠ .ready ∨ mysql.MoreResults then
    (true, setMysqlError mysql crCommandsOutOfSync unknownSqlstate)
  else
    let mysql := netClearError mysql
    let trace := mysql.trace ++ [.wrote query]
    (false, { mysql with
      info := none
      affectedRows := 2 ^ 64 - 1
      trace := trace
      incoming := server (queries trace) })

def readOk (packet : List UInt8) (pos : ℕ) : Mysql :=
  let mem := byteAt packet
  let (affectedRows, pos) := netFieldLengthLl mem pos
  let (insertId, pos) := netFieldLengthLl mem pos
  let mysql := { mysql with affectedRows := affectedRows, insertId := insertId }
  let (mysql, pos) :=
    if mysql.protocol41 then
      ({ mysql with
        serverStatus := (uint2korr mem pos).toUInt16
        warningCount := uint2korr mem (pos + 2) }, pos + 4)
    else if mysql.clientTransactions then
      ({ mysql with serverStatus := (uint2korr mem pos).toUInt16, warningCount := 0 }, pos + 2)
    else (mysql, pos)
  if pos < packet.length ∧ (netFieldLength mem pos).1 ≠ some 0 then
    { mysql with info := some (packet.drop (netFieldLength mem pos).2) }
  else mysql

def cliReadQueryResult : Option (Bool × Mysql) := do
  let (first, mysql) ← cliSafeRead mysql
  match first with
  | none => some (true, mysql)
  | some packet =>
    let mysql := freeOldQuery mysql
    match netFieldLength (byteAt packet) 0 with
    | (none, _) => none
    | (some fieldCount, pos) =>
      if fieldCount = 0 then some (false, readOk mysql packet pos)
      else do
        let mysql := { mysql with
          serverStatus := if mysql.serverStatus &&& serverStatusAutocommit = 0 then
            mysql.serverStatus ||| serverStatusInTrans else mysql.serverStatus }
        let (rows, mysql) ← cliReadRows mysql (if mysql.protocol41 then 7 else 5)
        match rows with
        | none => some (true, mysql)
        | some fields => some (false, { mysql with
            fields := some fields
            status := .getResult
            fieldCount := fieldCount })

def mysqlRealQuery (mysql : Mysql) (query : List UInt8) : Option (Bool × Mysql) :=
  match mysqlSendQuery server mysql query with
  | (true, mysql) => some (true, mysql)
  | (false, mysql) => cliReadQueryResult mysql

def mysqlNextResult : Option (ℤ × Mysql) :=
  if mysql.status ≠ .ready then
    some (1, setMysqlError mysql crCommandsOutOfSync unknownSqlstate)
  else
    let mysql := { netClearError mysql with affectedRows := 2 ^ 64 - 1 }
    if mysql.MoreResults then
      (cliReadQueryResult mysql).map fun (failed, mysql) => (if failed then 1 else 0, mysql)
    else some (-1, mysql)

def mysqlStoreResult : Option (Option MysqlRes × Mysql) :=
  match mysql.fields with
  | none => some (none, mysql)
  | some fields =>
    if mysql.status ≠ .getResult then
      some (none, setMysqlError mysql crCommandsOutOfSync unknownSqlstate)
    else do
      let (rows, mysql) ← cliReadRows { mysql with status := .ready } mysql.fieldCount
      match rows with
      | none => some (none, mysql)
      | some rows =>
        some (some {
            rowCount := rows.length
            fields := fields
            data := some rows
            dataCursor := rows
            handle := false
            currentRow := none
            fieldCount := mysql.fieldCount
            eof := true
            unbufferedFetchCancelled := false },
          { mysql with
            affectedRows := rows.length
            fields := none
            unbufferedFetchOwner := none })

def mysqlUseResult (id : ℕ) : Option MysqlRes × Mysql :=
  match mysql.fields with
  | none => (none, mysql)
  | some fields =>
    if mysql.status ≠ .getResult then
      (none, setMysqlError mysql crCommandsOutOfSync unknownSqlstate)
    else
      (some {
          rowCount := 0
          fields := fields
          data := none
          dataCursor := []
          handle := true
          currentRow := none
          fieldCount := mysql.fieldCount
          eof := false
          unbufferedFetchCancelled := false },
        { mysql with
          fields := none
          status := .useResult
          unbufferedFetchOwner := some id })

end

/-! ### Calls of a client -/

structure Client where
  mysql : Mysql
  results : ℕ → Option MysqlRes
  /-- The next address for a result. -/
  next : ℕ

section

variable (client : Client)

def endFetch (id : ℕ) (res : MysqlRes) (mysql : Mysql) : Client :=
  { client with
    mysql := { mysql with
      status := .ready
      unbufferedFetchOwner := if mysql.unbufferedFetchOwner = some id then none
        else mysql.unbufferedFetchOwner }
    results := update client.results id (some { res with eof := true, handle := false }) }

def mysqlFetchRow (id : ℕ) : Option (Option Row × Client) :=
  match client.results id with
  | none => some (none, client)
  | some res =>
    match res.data with
    | none =>
      if res.eof then some (none, client)
      else if ¬ res.handle then none
      else if client.mysql.status ≠ .useResult then
        some (none, endFetch client id res (setMysqlError client.mysql
          (if res.unbufferedFetchCancelled then crFetchCanceled else crCommandsOutOfSync)
          unknownSqlstate))
      else do
        let (row, mysql) ← readOneRow client.mysql res.fieldCount
        match row with
        | .ok row => some (some row, { client with
            mysql := mysql
            results := update client.results id
              (some { res with rowCount := res.rowCount + 1, currentRow := some row }) })
        | .error _ => some (none, endFetch client id res mysql)
    | some _ =>
      match res.dataCursor with
      | [] => some (none, { client with
          results := update client.results id (some { res with currentRow := none }) })
      | row :: rows => some (some row, { client with
          results := update client.results id
            (some { res with dataCursor := rows, currentRow := some row }) })

def cancelFetch (results : ℕ → Option MysqlRes) (owner : Option ℕ) : ℕ → Option MysqlRes :=
  match owner with
  | none => results
  | some id => update results id ((results id).map ({ · with unbufferedFetchCancelled := true }))

def mysqlFreeResult (id : ℕ) : Option Client :=
  match client.results id with
  | none => some client
  | some res =>
    let freed := update client.results id none
    if res.handle then
      let owner := if client.mysql.unbufferedFetchOwner = some id then none
        else client.mysql.unbufferedFetchOwner
      let mysql : Mysql := { client.mysql with unbufferedFetchOwner := owner }
      if mysql.status = .useResult then do
        let mysql ← cliFlushUseResult mysql
        some { client with
          mysql := { mysql with status := .ready }
          results := cancelFetch freed owner }
      else some { client with mysql := mysql, results := freed }
    else some { client with results := freed }

end

inductive ClientCall where
  | realQuery (query : List UInt8)
  | storeResult
  | useResult
  | fetchRow (id : ℕ)
  | freeResult (id : ℕ)
  | nextResult

inductive ClientReturn where
  /-- `mysql_real_query` and `mysql_next_result`. -/
  | code (code : ℤ)
  /-- `mysql_store_result` and `mysql_use_result`: the address of the result, if any. -/
  | result (id : Option ℕ)
  /-- `mysql_fetch_row`: the row, if any. -/
  | row (row : Option Row)
  /-- `mysql_free_result`. -/
  | unit

def Client.allocate (client : Client) (res : Option MysqlRes) (mysql : Mysql) :
    ClientReturn × Client :=
  match res with
  | none => (.result none, { client with mysql := mysql })
  | some res => (.result (some client.next),
      ⟨mysql, update client.results client.next (some res), client.next + 1⟩)

def Client.step (server : List (List UInt8) → List (List UInt8)) (client : Client) :
    ClientCall → Option (ClientReturn × Client)
  | .realQuery query =>
    (mysqlRealQuery server client.mysql query).map fun (failed, mysql) =>
      (.code (if failed then 1 else 0), { client with mysql := mysql })
  | .storeResult =>
    (mysqlStoreResult client.mysql).map fun (res, mysql) => client.allocate res mysql
  | .useResult =>
    some (client.allocate (mysqlUseResult client.mysql client.next).1
      (mysqlUseResult client.mysql client.next).2)
  | .fetchRow id => (mysqlFetchRow client id).map fun (row, client) => (.row row, client)
  | .freeResult id => (mysqlFreeResult client id).map (.unit, ·)
  | .nextResult =>
    (mysqlNextResult client.mysql).map fun (code, mysql) =>
      (.code code, { client with mysql := mysql })

def Client.run (server : List (List UInt8) → List (List UInt8)) :
    Client → List ClientCall → Option Client
  | client, [] => some client
  | client, call :: calls => do
      let (_, client) ← client.step server call
      client.run server calls

def Client.init (protocol41 clientTransactions : Bool) : Client where
  mysql := {
    incoming := []
    trace := []
    protocol41 := protocol41
    clientTransactions := clientTransactions
    status := .ready
    serverStatus := serverStatusAutocommit
    warningCount := 0
    affectedRows := 2 ^ 64 - 1
    insertId := 0
    info := none
    fields := none
    fieldCount := 0
    unbufferedFetchOwner := none
    lastErrno := 0
    sqlstate := notErrorSqlstate }
  results := fun _ => none
  next := 0

end LibSources
