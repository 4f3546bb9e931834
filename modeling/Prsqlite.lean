import Prsqlite.Page
import Prsqlite.Cursor
import Prsqlite.Payload
import Prsqlite.Record
import Prsqlite.Tree
import Prsqlite.Path
import Prsqlite.Termination
import Prsqlite.Traversal
import Prsqlite.Seek
import Prsqlite.Transaction
import Prsqlite.Select
import Prsqlite.TableSeek
import Prsqlite.Insert
import Prsqlite.Readback
import Prsqlite.Execute
import Prsqlite.Scan
import Prsqlite.Session
import Prsqlite.Confinement
