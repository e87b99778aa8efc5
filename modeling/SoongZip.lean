import SoongZip.Lib
import SoongZip.Basic
import SoongZip.Env
import SoongZip.Worker
import SoongZip.Producer
import SoongZip.Ancestors
import SoongZip.Split
import SoongZip.Write
import SoongZip.Entries
import SoongZip.Errors
import SoongZip.Channels
import SoongZip.Scripts
import SoongZip.Names
import SoongZip.Ownership
import SoongZip.Carried
import SoongZip.Archive
import SoongZip.Permits
import SoongZip.Balance
import SoongZip.Limits
import SoongZip.Layout
import SoongZip.Returns
import SoongZip.Room
import SoongZip.Delivery
import SoongZip.Live
import SoongZip.Deadlock
import SoongZip.Termination
