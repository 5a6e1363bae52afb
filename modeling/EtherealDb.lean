import EtherealDb.Proof.Recover
import EtherealDb.Proof.RespReply
import EtherealDb.Proof.PgPortal
import EtherealDb.Proof.PgSync
import EtherealDb.Proof.PgParams
import EtherealDb.Proof.PgValue
import EtherealDb.Proof.Dml
import EtherealDb.Proof.MySqlLiteral
import EtherealDb.Proof.Limit
import EtherealDb.Proof.Ctes
import EtherealDb.Proof.Literals
import EtherealDb.Proof.Slices
import EtherealDb.Proof.Proleptic
import EtherealDb.Proof.PgInstant
import EtherealDb.Proof.PgTemporal
import EtherealDb.Proof.Integers
import EtherealDb.Proof.ParamLiterals
import EtherealDb.Proof.ParamContexts
import EtherealDb.Proof.Catalog
import EtherealDb.Proof.Casts
import EtherealDb.Proof.Qualified
import EtherealDb.Proof.QuotedNames
import EtherealDb.Proof.LetterCase
import EtherealDb.Proof.MySqlSelect
import EtherealDb.Proof.Fuzz
import EtherealDb.Proof.Crush
import EtherealDb.Proof.RuleTables
import EtherealDb.Proof.Naming
import EtherealDb.Proof.PgBind
import EtherealDb.Proof.Comments
import EtherealDb.Proof.Server
import EtherealDb.Proof.PgStartup
import EtherealDb.Proof.MySqlLogin
import EtherealDb.Proof.RespPipeline
import EtherealDb.Proof.Cli
import EtherealDb.Proof.RespKeys
import EtherealDb.Proof.Careless
import EtherealDb.Proof.RowSizes
import EtherealDb.Proof.Keyspace
