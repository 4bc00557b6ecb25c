import LibSources.Client

/-!
# Times in the Execute Packet of `libmysql/libmysql.c`

What `store_param_time`, `store_param_date` and `store_param_datetime` write into the packet of
`cli_stmt_execute`: the low byte of a number first, as the host has them.
-/

namespace LibSources

open List

structure MysqlTime where
  year : ℕ
  month : ℕ
  day : ℕ
  hour : ℕ
  minute : ℕ
  second : ℕ
  secondPart : ℕ
  neg : Bool

def int4store (n : ℕ) : List UInt8 := int2store n ++ int2store (n / 65536)

variable (tm : MysqlTime)

/-- The representation of `MYSQL_TYPE_TIME`: the length and the fields that are not left out. -/
def timeBytes : List UInt8 :=
  let pos := (if tm.neg then 1 else 0) :: int4store tm.day ++
    [tm.hour.toUInt8, tm.minute.toUInt8, tm.second.toUInt8] ++ int4store tm.secondPart
  let length := if tm.secondPart ≠ 0 then 12
    else if tm.hour ≠ 0 ∨ tm.minute ≠ 0 ∨ tm.second ≠ 0 ∨ tm.day ≠ 0 then 8
    else 0
  length.toUInt8 :: pos.take length

def datetimeBytes : List UInt8 :=
  let pos := int2store tm.year ++ [tm.month.toUInt8, tm.day.toUInt8, tm.hour.toUInt8,
    tm.minute.toUInt8, tm.second.toUInt8] ++ int4store tm.secondPart
  let length := if tm.secondPart ≠ 0 then 11
    else if tm.hour ≠ 0 ∨ tm.minute ≠ 0 ∨ tm.second ≠ 0 then 7
    else if tm.year ≠ 0 ∨ tm.month ≠ 0 ∨ tm.day ≠ 0 then 4
    else 0
  length.toUInt8 :: pos.take length

def dateBytes : List UInt8 :=
  datetimeBytes { tm with hour := 0, minute := 0, second := 0, secondPart := 0 }

end LibSources
